import IonSchedule.Proofs.Blocks

/-! # Legal parallel blocks

The members of a parallel block are gates and blocks that are not parallel themselves; their qubits resolve, no
two of them share a slot, and a gate that is not the only member is parallelizable. If every parallel block of a
circuit is like this, so is every parallel block of its schedule: rewriting keeps what each member touches, and
gates join a moment only if their slots are free there. The same holds of other rules for members, such as that
no two of them share a slot.
-/
namespace IonSchedule

/-- A statement that may stand in a parallel block. -/
def Statement.mayShare : Statement → Bool
  | .gate _ => true
  | .block kind _ => kind ≠ .parallel
  | .loop .. => false

/-- No slot is touched by both statements. -/
def Universe.Apart (u : Universe) (s s' : Statement) : Prop :=
  ∀ a b, u.usage s = .ok a → u.usage s' = .ok b → a.disjoint b = true

/-- The members of a legal parallel block. -/
structure Universe.LegalMembers (u : Universe) (ss : List Statement) : Prop where
  mayShare : ∀ s ∈ ss, s.mayShare = true
  resolved : ∀ s ∈ ss, ∃ used, u.usage s = .ok used
  apart : ss.Pairwise u.Apart
  parallelizable : 1 < ss.length → ∀ g, .gate g ∈ ss → g.isParallelizable = true

def Block.IsLegal (u : Universe) (b : Block) : Prop := b.kind = .parallel → u.LegalMembers b.statements

/-- Every parallel block, at any depth of the body and of each macro, is legal. -/
structure Circuit.IsLegal (c : Circuit) : Prop where
  body : ∀ b ∈ c.body.blocks, b.IsLegal c.slots
  macros : ∀ m ∈ c.macros.values, ∀ b ∈ m.body.blocks, b.IsLegal (c.macroSlots m)

instance (u : Universe) (s s' : Statement) : Decidable (u.Apart s s') :=
  match hs : u.usage s, hs' : u.usage s' with
  | .ok a, .ok b => decidable_of_iff (a.disjoint b = true) (by simp [Universe.Apart, hs, hs'])
  | .error _, _ => isTrue (by simp [Universe.Apart, hs])
  | .ok _, .error _ => isTrue (by simp [Universe.Apart, hs'])

instance (u : Universe) (s : Statement) : Decidable (∃ used, u.usage s = .ok used) := decidable_of_iff _ toBool_iff

/-- What is asked of a member of a parallel block whatever the others are; `crowded` says that there are others. -/
def Statement.MayJoin (crowded : Bool) (s : Statement) : Prop :=
  s.mayShare = true ∧ (crowded = true → ∀ g ∈ s.gate?, g.isParallelizable = true)

instance (crowded : Bool) (s : Statement) : Decidable (s.MayJoin crowded) :=
  inferInstanceAs (Decidable (_ ∧ (_ → _)))

theorem Universe.legalMembers_iff {u : Universe} {ss : List Statement} :
    (∀ s ∈ ss, s.MayJoin (1 < ss.length)) ∧ (∀ s ∈ ss, ∃ used, u.usage s = .ok used) ∧ ss.Pairwise u.Apart ↔
      u.LegalMembers ss := by
  constructor
  · rintro ⟨hjoin, hresolved, hapart⟩
    refine ⟨fun s hs => (hjoin s hs).1, hresolved, hapart, fun hlength g hg => ?_⟩
    exact (hjoin _ hg).2 (by simpa using hlength) g rfl
  · intro h
    refine ⟨fun s hs => ⟨h.mayShare s hs, fun hcrowded g hg => ?_⟩, h.resolved, h.apart⟩
    cases s with
    | gate g' =>
      cases hg
      exact h.parallelizable (by simpa using hcrowded) g hs
    | block kind ms => simp [Statement.gate?] at hg
    | loop count kind body => simp [Statement.gate?] at hg

instance (u : Universe) (ss : List Statement) : Decidable (u.LegalMembers ss) :=
  decidable_of_iff _ Universe.legalMembers_iff

instance (u : Universe) (b : Block) : Decidable (b.IsLegal u) := inferInstanceAs (Decidable (_ → _))

instance (c : Circuit) : Decidable c.IsLegal :=
  decidable_of_iff (_ ∧ _) ⟨fun h => ⟨h.1, h.2⟩, fun h => ⟨h.body, h.macros⟩⟩

namespace Universe

variable {u : Universe} {s : Statement} {ss ts : List Statement} {used a : Usage}

theorem usage_of_mem (hu : u.usageAll ss = .ok used) (hs : s ∈ ss) : ∃ a, u.usage s = .ok a := by
  rw [usageAll_eq_ok_iff] at hu
  obtain ⟨a, ha⟩ := exists_uses fun g hg => hu.resolved g (Reading.mem_calls_readAll_iff.2 ⟨s, hs, hg⟩)
  exact ⟨a, (usage_eq_ok_iff s).2 ha⟩

theorem mem_of_mem_usage (hu : u.usageAll ss = .ok used) (hs : s ∈ ss) (ha : u.usage s = .ok a) {x : Slot}
    (hx : x ∈ a) : x ∈ used := by
  rw [usageAll_eq_ok_iff] at hu
  rw [usage_eq_ok_iff] at ha
  obtain ⟨g, hg, htouch⟩ := (ha.mem_iff x).1 hx
  exact (hu.mem_iff x).2 ⟨g, Reading.mem_calls_readAll_iff.2 ⟨s, hs, hg⟩, htouch⟩

/-- Parallelizable gates are legal members if no two share a slot. -/
theorem legalMembers_of_group (hg : isParallelGroup .parallel ss = true) (hu : u.usageAll ss = .ok used)
    (hapart : ss.Pairwise u.Apart) : u.LegalMembers ss where
  mayShare s hs := by
    obtain ⟨g, rfl, -⟩ := Statement.gate_of_mem_group hg hs
    rfl
  resolved s hs := usage_of_mem hu hs
  apart := hapart
  parallelizable := by
    intro _ g hs
    obtain ⟨g', heq, hg'⟩ := Statement.gate_of_mem_group hg hs
    cases heq
    exact hg'

theorem pairwise_apart_append {other : Usage} (hss : ss.Pairwise u.Apart) (hts : ts.Pairwise u.Apart)
    (hu : u.usageAll ss = .ok used) (hv : u.usageAll ts = .ok other) (hfree : used.disjoint other = true) :
    (ss ++ ts).Pairwise u.Apart := by
  refine List.pairwise_append.2 ⟨hss, hts, ?_⟩
  intro s hs s' hs' a b ha hb
  rw [Usage.disjoint_iff] at hfree ⊢
  intro x hx hx'
  exact hfree x (mem_of_mem_usage hu hs ha hx) (mem_of_mem_usage hv hs' hb hx')

/-- What rewriting keeps of a member of a parallel block. -/
structure Corresponds (u : Universe) (s s' : Statement) : Prop where
  usage : ∀ used, u.usage s' = .ok used ↔ u.usage s = .ok used
  mayShare : s.mayShare = true → s'.mayShare = true
  gate : ∀ g, s' = .gate g → s = .gate g

theorem pairwise_apart_of_corresponds (hc : List.Forall₂ u.Corresponds ss ts) (h : ss.Pairwise u.Apart) :
    ts.Pairwise u.Apart := by
  induction hc with
  | nil => exact .nil
  | cons hfirst hrest ih =>
    rw [List.pairwise_cons] at h ⊢
    refine ⟨?_, ih h.2⟩
    intro s' hs' a b ha hb
    obtain ⟨s, hs, hcs⟩ := exists_left_of_forall₂ hrest hs'
    exact h.1 s hs a b ((hfirst.usage a).1 ha) ((hcs.usage b).1 hb)

theorem LegalMembers.of_corresponds (h : u.LegalMembers ss) (hc : List.Forall₂ u.Corresponds ss ts) :
    u.LegalMembers ts where
  mayShare s' hs' := by
    obtain ⟨s, hs, hcs⟩ := exists_left_of_forall₂ hc hs'
    exact hcs.mayShare (h.mayShare s hs)
  resolved s' hs' := by
    obtain ⟨s, hs, hcs⟩ := exists_left_of_forall₂ hc hs'
    obtain ⟨used, hu⟩ := h.resolved s hs
    exact ⟨used, (hcs.usage used).2 hu⟩
  apart := pairwise_apart_of_corresponds hc h.apart
  parallelizable := by
    intro hlength g hg
    obtain ⟨s, hs, hcs⟩ := exists_left_of_forall₂ hc hg
    cases hcs.gate g rfl
    exact h.parallelizable (by rwa [hc.length_eq]) g hs

/-- What a rule for the members of parallel blocks has to satisfy for scheduling to keep it: it sets members
apart, it depends only on what rewriting keeps of them, and parallelizable gates that are apart obey it. -/
structure MemberRule (u : Universe) (P : List Statement → Prop) : Prop where
  apart : ∀ {ss}, P ss → ss.Pairwise u.Apart
  rewritten : ∀ {ss ts}, P ss → List.Forall₂ u.Corresponds ss ts → P ts
  gates : ∀ {ss used}, isParallelGroup .parallel ss = true → u.usageAll ss = .ok used → ss.Pairwise u.Apart → P ss

theorem memberRule_legalMembers (u : Universe) : u.MemberRule u.LegalMembers :=
  ⟨LegalMembers.apart, LegalMembers.of_corresponds, legalMembers_of_group⟩

theorem memberRule_apart (u : Universe) : u.MemberRule (List.Pairwise u.Apart) :=
  ⟨id, fun h hc => pairwise_apart_of_corresponds hc h, fun _ _ h => h⟩

end Universe

variable {P : List Statement → Prop}

/-- The members of every parallel block of the statement obey the rule. -/
abbrev Statement.Obeys (P : List Statement → Prop) (s : Statement) : Prop :=
  s.AllBlocks fun b => b.kind = .parallel → P b.statements

theorem Statement.pairwise_of_group? {u : Universe} (hP : u.MemberRule P) {s : Statement} {members : List Statement}
    (hs : s.Obeys P) (h : s.group? = some members) : members.Pairwise u.Apart := by
  cases s with
  | gate g =>
    simp only [group?, Option.ite_none_right_eq_some, Option.some.injEq] at h
    obtain ⟨-, rfl⟩ := h
    exact List.pairwise_singleton _ _
  | block kind ms =>
    simp only [group?, Option.ite_none_right_eq_some, Option.some.injEq, isParallelGroup, Bool.and_eq_true,
      decide_eq_true_eq] at h
    obtain ⟨⟨hkind, -⟩, rfl⟩ := h
    exact hP.apart ((allBlocks_block_iff.1 hs).1 hkind)
  | loop count kind body => simp [group?] at h

/-- The parallel blocks in a timeline obey the rule, and no two statements of an open moment share a slot. -/
structure Timeline.Obeys (u : Universe) (P : List Statement → Prop) (t : Timeline) : Prop where
  contents : ∀ s ∈ t.contents, s.Obeys P
  apart : ∀ m ∈ t.moments, m.isOpen = true → m.statements.Pairwise u.Apart

theorem Timeline.obeys_empty (u : Universe) (P : List Statement → Prop) : Timeline.empty.Obeys u P :=
  ⟨by simp [empty, contents], by simp [empty]⟩

theorem Timeline.Obeys.statements {u : Universe} (hP : u.MemberRule P) {t : Timeline} (h : t.Obeys u P)
    (hv : t.Valid u) {s : Statement} (hs : s ∈ t.statements) : s.Obeys P := by
  rcases mem_statements hs with hs | ⟨m, hm, hlength, rfl⟩
  · exact h.contents s hs
  · have hwf := hv.moments m hm
    -- a closed moment holds one statement, which is listed as it is
    have hopen : m.isOpen = true := by
      by_contra hclosed
      obtain ⟨x, hx⟩ := hwf.single (by simpa using hclosed)
      simp [hx] at hlength
    refine Statement.allBlocks_block_iff.2 ⟨fun _ => ?_, fun x hx => ?_⟩
    · exact hP.gates (hwf.gates hopen) hwf.usage (h.apart m hm hopen)
    · exact h.contents x (mem_contents_iff.2 ⟨m, hm, hx⟩)

namespace Schedule

variable {u : Universe} {after last : Option Nat} {t t' : Timeline} {s : Statement} {ss : List Statement}
  {j : Judgement}

theorem Enters.obeys (hP : u.MemberRule P) (h : Enters u after t s t' last) (hv : t.Valid u) (ht : t.Obeys u P)
    (hs : s.Obeys P) : t'.Obeys u P := by
  refine ⟨h.forall_contents Statement.allBlocks_gate ht.contents hs, ?_⟩
  cases h with
  | skip kind => exact ht.apart
  | @join _ members usage i hgroup hne hu hi =>
    obtain ⟨pre, m, post, hsplit, rfl, hopen, hfree⟩ := hv.findOpen?_eq_some hi
    rw [Timeline.merge_moments hsplit]
    intro n hn hnopen
    simp only [List.mem_append, List.mem_cons] at hn
    rcases hn with hn | rfl | hn
    · exact ht.apart n (by simp [hsplit, hn]) hnopen
    · have hm : m ∈ t.moments := by simp [hsplit]
      exact Universe.pairwise_apart_append (ht.apart m hm hopen) (Statement.pairwise_of_group? hP hs hgroup)
        (hv.moments m hm).usage hu (hfree m List.mem_cons_self)
    · exact ht.apart n (by simp [hsplit, hn]) hnopen
  | start hg hu hi =>
    intro m hm hopen
    simp only [Timeline.push, List.mem_append, List.mem_singleton] at hm
    rcases hm with hm | rfl
    · exact ht.apart m hm hopen
    · exact List.pairwise_singleton _ _
  | alone hne hu hgroup =>
    intro m hm hopen
    simp only [Timeline.isolate, Timeline.push, List.mem_append, List.mem_singleton] at hm
    rcases hm with hm | rfl
    · exact ht.apart m hm hopen
    · exact List.pairwise_singleton _ _

theorem EntersAll.obeys (hP : u.MemberRule P) (h : EntersAll u after t ss t' last) (hv : t.Valid u)
    (ht : t.Obeys u P) (hss : ∀ s ∈ ss, s.Obeys P) : t'.Obeys u P := by
  have hstep : ∀ {after last t t' s}, Enters u after t s t' last → s.Obeys P → t.Valid u ∧ t.Obeys u P →
      t'.Valid u ∧ t'.Obeys u P := by
    intro after last t t' s henters hs ht
    exact ⟨henters.valid ht.1, henters.obeys hP ht.1 ht.2 hs⟩
  exact (h.preserves hstep hss ⟨hv, ht⟩).2

def Judgement.Corresponds (u : Universe) : Judgement → Prop
  | .arranged s s' _ => u.Corresponds s s'
  | .members ss out _ => List.Forall₂ u.Corresponds ss out
  | _ => True

/-- Rewriting keeps the calls of a statement and so the slots that it touches. -/
theorem usage_arranged {s s' : Statement} {stats : Stats} (h : Derives u (.arranged s s' stats)) (used : Usage) :
    u.usage s' = .ok used ↔ u.usage s = .ok used := by
  rw [Universe.usage_eq_ok_iff, Universe.usage_eq_ok_iff, h.calls_arranged]

theorem Derives.corresponds (h : Derives u j) : j.Corresponds u := by
  induction h with
  | gate => exact ⟨fun _ => Iff.rfl, id, fun _ h => h⟩
  | @block kind ss out stats body ih =>
    refine ⟨usage_arranged (.block body), fun hshare => ?_, by simp⟩
    cases kind with
    | sequential => rfl
    | parallel => simp [Statement.mayShare] at hshare
    | unscheduled => rfl
  | loop body ih => exact ⟨usage_arranged (.loop body), by simp [Statement.mayShare], by simp⟩
  | noMember => exact .nil
  | member first others ihfirst ihothers => exact .cons ihfirst ihothers
  | _ => trivial

/-- Parallel blocks that obey the rule still do. -/
def Judgement.KeepsRule (u : Universe) (P : List Statement → Prop) : Judgement → Prop
  | .arranged s s' _ => s.Obeys P → s'.Obeys P
  | .members ss out _ => (∀ s ∈ ss, s.Obeys P) → ∀ s ∈ out, s.Obeys P
  | .sequence _ ss out _ => (∀ s ∈ ss, s.Obeys P) → ∀ s ∈ out, s.Obeys P
  | .piece _ s out _ => s.Obeys P → ∀ s' ∈ out, s'.Obeys P
  | .body kind ss out _ => (kind = .parallel → P ss) ∧ (∀ s ∈ ss, s.Obeys P) →
      (kind.scheduled = .parallel → P out) ∧ ∀ s ∈ out, s.Obeys P
  | .placed s _ t p => s.Obeys P → t.Valid u → t.Obeys u P → p.timeline.Obeys u P
  | .placedAll _ ss _ t p => (∀ s ∈ ss, s.Obeys P) → t.Valid u → t.Obeys u P → p.timeline.Obeys u P

theorem Derives.keepsRule (hP : u.MemberRule P) (h : Derives u j) : j.KeepsRule u P := by
  induction h with
  | gate => exact id
  | block body ih => exact fun hs => Statement.allBlocks_block_iff.2 (ih (Statement.allBlocks_block_iff.1 hs))
  | loop body ih => exact fun hs => Statement.allBlocks_loop_iff.2 (ih (Statement.allBlocks_loop_iff.1 hs))
  | noMember => exact id
  | member first others ihfirst ihothers =>
    intro hss
    rw [List.forall_mem_cons] at hss ⊢
    exact ⟨ihfirst hss.1, ihothers hss.2⟩
  | noPiece => exact id
  | pieces head tail ihhead ihtail =>
    intro hss
    rw [List.forall_mem_cons] at hss
    exact List.forall_mem_append.2 ⟨ihhead hss.1, ihtail hss.2⟩
  | moments body ih => exact fun hs => (ih (Statement.allBlocks_block_iff.1 hs)).2
  | spliced body ih => exact fun hs => (ih (Statement.allBlocks_block_iff.1 hs)).2
  | nested body ih =>
    intro hs
    exact List.forall_mem_singleton.2 (Statement.allBlocks_block_iff.2 (ih (Statement.allBlocks_block_iff.1 hs)))
  | kept hleaf arranged ih => exact fun hs => List.forall_mem_singleton.2 (ih hs)
  | sequential sequence ih => exact fun hb => ⟨by simp [BlockKind.scheduled], ih hb.2⟩
  | parallel members ih => exact fun hb => ⟨fun _ => hP.rewritten (hb.1 rfl) members.corresponds, ih hb.2⟩
  | unscheduled placed ih =>
    intro hb
    have hobeys := ih hb.2 Timeline.valid_empty (Timeline.obeys_empty u P)
    have hvalid := placed.keepsValid Timeline.valid_empty
    exact ⟨by simp [BlockKind.scheduled], fun s hs => hobeys.statements hP hvalid hs⟩
  | chain placed ih => exact fun hs => ih (Statement.allBlocks_block_iff.1 hs).2
  | again body enters ih =>
    intro hs hv ht
    exact enters.obeys hP hv ht (ih (Statement.allBlocks_block_iff.1 hs)).2
  | leaf hleaf arranged enters ih => exact fun hs hv ht => enters.obeys hP hv ht (ih hs)
  | none => exact fun _ _ ht => ht
  | next first others ihfirst ihothers =>
    intro hss hv ht
    rw [List.forall_mem_cons] at hss
    exact ihothers hss.2 (first.keepsValid hv) (ihfirst hss.1 hv ht)

theorem ArrangesBlock.obeys (hP : u.MemberRule P) {topLevel : Bool} {b b' : Block}
    (h : ArrangesBlock u topLevel b b')
    (hb : ∀ x ∈ b.blocks, x.kind = .parallel → P x.statements) :
    ∀ x ∈ b'.blocks, x.kind = .parallel → P x.statements := by
  rw [Block.forall_blocks_iff] at hb ⊢
  cases h with
  | body statements => exact statements.keepsRule hP hb
  | top statements => exact ⟨by simp, statements.keepsRule hP hb.2⟩
  | topMoments statements => exact statements.keepsRule hP hb

end Schedule

theorem Circuit.IsLegal.schedule {c c' : Circuit} {stats : Stats} (hl : c.IsLegal)
    (h : c.schedule = .ok (c', stats)) : c'.IsLegal := by
  have ha := Circuit.arranges_of_schedule h
  constructor
  · rw [ha.slots]
    exact ha.body.obeys (Universe.memberRule_legalMembers _) hl.body
  · intro m' hm'
    obtain ⟨m, hm, -, hparameters, hbody⟩ := ha.exists_macro hm'
    rw [ha.macroSlots hparameters]
    exact hbody.obeys (Universe.memberRule_legalMembers _) (hl.macros m hm)

end IonSchedule
