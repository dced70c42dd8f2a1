import IonSchedule.Proofs.Declarations
import IonSchedule.Proofs.ParameterBinding
import IonSchedule.Proofs.ReadNumbers

/-! # Scheduled circuits are valid

Scheduling moves calls and loops and changes none of them, and it keeps what they are checked against. So the
schedule of a valid circuit is valid, and its numbers can be read back if those of the circuit can. Together
with the normal form this makes the JSON text of a schedule the text of its own schedule.
-/
namespace IonSchedule.Circuit

open Schedule

variable {c c' : Circuit} {stats : Stats}

theorem Arranges.covers (h : c.Arranges c') : c.Covers c' where
  sizes hsize := h.registers ▸ hsize
  constants hname := h.constants ▸ hname
  macros hm := by
    obtain ⟨m', hm', hparameters, -⟩ := h.exists_get? hm
    exact ⟨m', hm', hparameters⟩
  nativeGates := h.nativeGates

theorem Arranges.checkStatements (h : c.Arranges c') {u : Universe} {topLevel : Bool} {b b' : Block}
    (hb : ArrangesBlock u topLevel b b') {scope : List String}
    (hchecked : c.checkStatements scope b.statements = .ok ()) :
    c'.checkStatements scope b'.statements = .ok () := by
  rw [checkStatements_eq_ok_iff_mentions] at hchecked ⊢
  rw [(Reading.independent_of_comm Reading.mentions u).readAll_arrangesBlock hb]
  exact fun x hx => h.covers.accepts (hchecked x hx)

theorem validate_eq_ok_iff :
    c.validate = .ok () ↔ c.MacrosAccepted ∧ c.checkStatements [] c.body.statements = .ok () := by
  simp only [validate, check_eq_ok_iff, checkMacros_eq_ok_iff, MacrosAccepted]

theorem Arranges.validate (h : c.Arranges c') (hv : c.validate = .ok ()) : c'.validate = .ok () := by
  rw [validate_eq_ok_iff] at hv ⊢
  refine ⟨fun m' hm' => ?_, h.checkStatements h.body hv.2⟩
  obtain ⟨m, hm, -, hparameters, hbody⟩ := h.exists_macro hm'
  rw [hparameters]
  exact h.checkStatements hbody (hv.1 m hm)

theorem Arranges.forall_scalars (h : c.Arranges c') {P : Scalar → Prop} (hc : ∀ x ∈ c.scalars, P x) :
    ∀ x ∈ c'.scalars, P x := by
  have hblock {u : Universe} {topLevel : Bool} {b b' : Block} (hb : ArrangesBlock u topLevel b b') :
      b'.scalars = b.scalars := (Reading.independent_of_comm Reading.scalars u).readAll_arrangesBlock hb
  rw [forall_scalars_iff] at hc ⊢
  obtain ⟨hconstants, hregisters, hmacros, hbody⟩ := hc
  rw [h.constants, h.registers, hblock h.body]
  refine ⟨hconstants, hregisters, fun m' hm' => ?_, hbody⟩
  obtain ⟨m, hm, -, -, hm'⟩ := h.exists_macro hm'
  rw [hblock hm']
  exact hmacros m hm

end IonSchedule.Circuit
