import IonSchedule.Jaqal
import IonSchedule.Proofs.NumberText
import IonSchedule.Proofs.Reading

/-! # The words of Jaqal text

Every line of Jaqal text is a sequence of words with a blank between them, and the line determines its words.
The words of a declaration, of a gate call and of the head of a block determine in turn what they stand for, as
long as names are made of letters, digits and underscores, do not begin with a digit and are no keywords.
-/
namespace IonSchedule

/-- Two lists that begin with what satisfies `p` and go on with what does not agree in both parts. -/
theorem append_inj_of_forall {α : Type} {p : α → Prop} {as bs cs ds : List α} (has : ∀ a ∈ as, p a)
    (hbs : ∀ b ∈ bs, p b) (hcs : ∀ c ∈ cs.head?, ¬ p c) (hds : ∀ d ∈ ds.head?, ¬ p d) (h : as ++ cs = bs ++ ds) :
    as = bs ∧ cs = ds := by
  induction as generalizing bs with
  | nil =>
    cases bs with
    | nil => exact ⟨rfl, h⟩
    | cons b bs =>
      rw [List.nil_append] at h
      exact absurd (hbs b List.mem_cons_self) (hcs b (by simp [h]))
  | cons a as ih =>
    cases bs with
    | nil =>
      rw [List.nil_append] at h
      exact absurd (has a List.mem_cons_self) (hds a (by simp [← h]))
    | cons b bs =>
      obtain ⟨rfl, htail⟩ := List.cons.inj h
      obtain ⟨rfl, hrest⟩ := ih (fun x hx => has x (List.mem_cons_of_mem a hx))
        (fun x hx => hbs x (List.mem_cons_of_mem a hx)) htail
      exact ⟨rfl, hrest⟩

/-- What stands before the first occurrence of a separator, and what stands after it. -/
theorem append_cons_inj {α : Type} {x : α} {as bs cs ds : List α} (has : x ∉ as) (hbs : x ∉ bs)
    (h : as ++ x :: cs = bs ++ x :: ds) : as = bs ∧ cs = ds := by
  have hne : ∀ {zs : List α}, x ∉ zs → ∀ z ∈ zs, z ≠ x := fun hx z hz hzx => hx (hzx ▸ hz)
  obtain ⟨hleft, hright⟩ := append_inj_of_forall (hne has) (hne hbs) (by simp) (by simp) h
  exact ⟨hleft, (List.cons.inj hright).2⟩

theorem map_eq_map_of_forall {α β γ : Type} {f : α → β} {g : α → γ} {as bs : List α}
    (hinj : ∀ a ∈ as, ∀ b ∈ bs, f a = f b → g a = g b) (h : as.map f = bs.map f) : as.map g = bs.map g := by
  induction as generalizing bs with
  | nil =>
    cases bs with
    | nil => rfl
    | cons b bs => cases h
  | cons a as ih =>
    cases bs with
    | nil => cases h
    | cons b bs =>
      obtain ⟨hfirst, hrest⟩ := List.cons.inj h
      rw [List.map_cons, List.map_cons, hinj a List.mem_cons_self b List.mem_cons_self hfirst,
        ih (fun x hx y hy => hinj x (List.mem_cons_of_mem a hx) y (List.mem_cons_of_mem b hy)) hrest]

namespace Jaqal

/-! ## Lines and words -/

def IsWord (w : String) : Prop := ' ' ∉ w.toList ∧ '\n' ∉ w.toList

def unwords (ws : List String) : String := " ".intercalate ws

theorem toList_unwords (ws : List String) : (unwords ws).toList = [' '].intercalate (ws.map String.toList) :=
  String.toList_intercalate

theorem unwords_cons {w : String} {ws : List String} (h : ws ≠ []) : unwords (w :: ws) = w ++ " " ++ unwords ws :=
  String.intercalate_cons_of_ne_nil h

theorem foldl_words (w : String) (ws : List String) :
    ws.foldl (fun s w => s ++ " " ++ w) w = unwords (w :: ws) := by
  induction ws generalizing w with
  | nil => simp [unwords]
  | cons v ws ih =>
    rw [List.foldl_cons, ih, unwords, unwords, String.intercalate_cons_append, String.intercalate_cons_cons]

theorem splitOn_unwords {ws : List String} (hne : ws ≠ []) (hws : ∀ w ∈ ws, IsWord w) :
    (unwords ws).toList.splitOn ' ' = ws.map String.toList := by
  rw [toList_unwords]
  refine List.splitOn_intercalate ' ' (fun l hl => ?_) (by simpa using hne)
  obtain ⟨w, hw, rfl⟩ := List.mem_map.1 hl
  exact (hws w hw).1

/-- A line determines its words. -/
theorem unwords_inj {ws us : List String} (hws : ∀ w ∈ ws, IsWord w) (hus : ∀ u ∈ us, IsWord u) (hwne : ws ≠ [])
    (hune : us ≠ []) (h : unwords ws = unwords us) : ws = us := by
  have hsplit := splitOn_unwords hwne hws
  rw [h, splitOn_unwords hune hus] at hsplit
  exact (List.map_inj_right fun _ _ hw => String.toList_inj.1 hw).1 hsplit.symm

/-! ## Names -/

/-- Digits, underscores and letters; a letter may be from any alphabet. -/
def isNameChar (c : Char) : Bool := c.isAlphanum || c = '_' || 128 ≤ c.toNat

def keywords : List String := ["register", "map", "let", "macro", "loop"]

/-- Whether a name can be told apart from everything else in the text. -/
def isName (name : String) : Bool :=
  name.toList.all isNameChar && name.toList.head?.any (!·.isDigit) && !keywords.contains name

theorem isNameChar_of_mem {name : String} (h : isName name = true) : ∀ c ∈ name.toList, isNameChar c = true := by
  simp only [isName, Bool.and_eq_true, List.all_eq_true] at h
  exact h.1.1

/-- A character that cannot stand in a name. -/
theorem notMem_of_isName {name : String} (h : isName name = true) {c : Char} (hc : isNameChar c = false) :
    c ∉ name.toList := by
  intro hmem
  rw [isNameChar_of_mem h c hmem] at hc
  cases hc

theorem exists_toList_eq_cons {name : String} (h : isName name = true) :
    ∃ c cs, name.toList = c :: cs ∧ isNameChar c = true ∧ c.isDigit = false := by
  have hchars := isNameChar_of_mem h
  simp only [isName, Bool.and_eq_true] at h
  cases hlist : name.toList with
  | nil => simp [hlist] at h
  | cons c cs =>
    rw [hlist] at hchars h
    exact ⟨c, cs, rfl, hchars c List.mem_cons_self, by simpa using h.1.2⟩

theorem isWord_of_isName {name : String} (h : isName name = true) : IsWord name :=
  ⟨notMem_of_isName h rfl, notMem_of_isName h rfl⟩

theorem ne_of_isName {name word : String} (h : isName name = true) (hword : isName word = false) : name ≠ word := by
  rintro rfl
  rw [h] at hword
  cases hword

/-! ## Numbers -/

theorem toString_text (s : String) : toString s = s := rfl

theorem notMem_toDigits (n : Nat) {c : Char} (hc : c.isDigit = false) : c ∉ Nat.toDigits 10 n := by
  intro hmem
  rw [Nat.isDigit_of_mem_toDigits (by decide) (by decide) hmem] at hc
  cases hc

theorem toDigits_inj {m n : Nat} (h : Nat.toDigits 10 m = Nat.toDigits 10 n) : m = n := by
  rw [← Nat.ofDigitChars_ten_toDigits (n := m), h, Nat.ofDigitChars_ten_toDigits]

/-- The text of a finite number is that of a literal which stands for the number. -/
theorem exists_literal {x : Binary64} (h : x.isFinite = true) :
    ∃ l : Literal, l.IsWellFormed ∧ l.value? = some x ∧ x.text.toList = l.chars := by
  cases x with
  | nan => cases h
  | infinity negative => cases h
  | finite negative k =>
    obtain ⟨l, hl⟩ : ∃ l, Literal.ofBinary64? numberLayout (.finite negative k) = some l := ⟨_, rfl⟩
    obtain ⟨hwell, hvalue⟩ := Literal.ofBinary64?_eq_some hl
    exact ⟨l, hwell, hvalue, by simp [Binary64.text, hl, Literal.text]⟩

theorem numberText_inj {x y : Binary64} (hx : x.isFinite = true) (hy : y.isFinite = true)
    (h : x.text = y.text) : x = y := by
  obtain ⟨l, hl, hlx, htext⟩ := exists_literal hx
  obtain ⟨m, hm, hmy, htext'⟩ := exists_literal hy
  have hchars : l.chars = m.chars := by rw [← htext, h, htext']
  have hliteral : l = m := by
    have hread := Literal.ofChars?_chars hl
    rw [hchars, Literal.ofChars?_chars hm] at hread
    exact (Option.some.inj hread).symm
  rw [hliteral, hmy] at hlx
  exact (Option.some.inj hlx).symm

theorem isWord_numberText {x : Binary64} (h : x.isFinite = true) : IsWord x.text := by
  obtain ⟨l, hl, -, htext⟩ := exists_literal h
  have hchars := Literal.isDigit_or_mem_of_mem_chars hl
  rw [IsWord, htext]
  constructor
  · intro hmem
    exact absurd (hchars ' ' hmem) (by decide)
  · intro hmem
    exact absurd (hchars '\n' hmem) (by decide)

theorem isWord_repr (n : Nat) : IsWord (toString n) := by
  simp only [IsWord, Nat.toString_eq_ofList_toDigits, String.toList_ofList]
  exact ⟨notMem_toDigits n rfl, notMem_toDigits n rfl⟩

/-- A name with a number in brackets after it: a register with its size, or a qubit. -/
theorem toList_qubitText (q : Qubit) :
    q.text.toList = q.register.toList ++ '[' :: (Nat.toDigits 10 q.index ++ [']']) := by
  simp [Qubit.text, toString_text]

theorem qubitText_inj {p q : Qubit} (hp : isName p.register = true) (hq : isName q.register = true)
    (h : p.text = q.text) : p = q := by
  rw [← String.toList_inj, toList_qubitText, toList_qubitText] at h
  obtain ⟨hregister, hindex⟩ := append_cons_inj (notMem_of_isName hp rfl) (notMem_of_isName hq rfl) h
  obtain ⟨register, index⟩ := p
  obtain rfl := String.toList_inj.1 hregister
  obtain rfl := toDigits_inj (List.append_cancel_right hindex)
  rfl

theorem isWord_qubitText {q : Qubit} (h : isName q.register = true) : IsWord q.text := by
  have hnot : ∀ {c : Char}, isNameChar c = false → c ≠ '[' → c ≠ ']' → c.isDigit = false → c ∉ q.text.toList := by
    intro c hname hopen hclose hdigit
    simp [toList_qubitText, notMem_of_isName h hname, hopen, hclose, notMem_toDigits q.index hdigit]
  exact ⟨hnot rfl (by decide) (by decide) rfl, hnot rfl (by decide) (by decide) rfl⟩

/-! ## Arguments and gate calls -/

/-- An argument that can be printed: its name is one, or its number is finite. -/
def IsPlain : Argument → Prop
  | .number value => value.isFinite = true
  | .qubit q => isName q.register = true
  | .ref name => isName name = true

theorem isWord_argumentText {a : Argument} (h : IsPlain a) : IsWord a.text := by
  cases a with
  | number value => exact isWord_numberText h
  | qubit q => exact isWord_qubitText h
  | ref name => exact isWord_of_isName h

/-- Numbers begin with a sign or a digit, and names do not. -/
theorem numberText_ne {x : Binary64} (hx : x.isFinite = true) {name : String} (hname : isName name = true)
    (rest : List Char) : x.text.toList ≠ name.toList ++ rest := by
  obtain ⟨l, hl, -, htext⟩ := exists_literal hx
  obtain ⟨c, cs, hchars, hc⟩ := Literal.exists_chars_eq_cons hl
  obtain ⟨d, ds, hlist, hd, hdigit⟩ := exists_toList_eq_cons hname
  rw [htext, hchars, hlist]
  intro h
  obtain rfl : c = d := (List.cons.inj h).1
  rcases hc with rfl | hc
  · exact absurd hd (by decide)
  · rw [hc] at hdigit
    cases hdigit

theorem qubitText_ne {q : Qubit} {name : String} (hname : isName name = true) : q.text ≠ name := by
  intro h
  have hbracket : '[' ∈ q.text.toList := by simp [toList_qubitText]
  rw [h] at hbracket
  exact notMem_of_isName hname rfl hbracket

theorem argumentText_inj {a b : Argument} (ha : IsPlain a) (hb : IsPlain b) (h : a.text = b.text) : a = b := by
  cases a with
  | number x =>
    cases b with
    | number y => rw [numberText_inj ha hb h]
    | qubit q =>
      have hlist := String.toList_inj.2 h
      exact absurd (hlist.trans (toList_qubitText q)) (numberText_ne ha hb _)
    | ref name =>
      have hlist := String.toList_inj.2 h
      exact absurd (hlist.trans (List.append_nil _).symm) (numberText_ne ha hb [])
  | qubit p =>
    cases b with
    | number y =>
      have hlist := String.toList_inj.2 h.symm
      exact absurd (hlist.trans (toList_qubitText p)) (numberText_ne hb ha _)
    | qubit q => rw [qubitText_inj ha hb h]
    | ref name => exact absurd h (qubitText_ne hb)
  | ref name =>
    cases b with
    | number y =>
      have hlist := String.toList_inj.2 h.symm
      exact absurd (hlist.trans (List.append_nil _).symm) (numberText_ne hb ha [])
    | qubit q => exact absurd h.symm (qubitText_ne ha)
    | ref other =>
      obtain rfl : name = other := h
      rfl

def gateWords (g : GateCall) : List String := g.name :: g.args.map Argument.text

theorem gateText_eq (g : GateCall) : g.text = unwords (gateWords g) := by
  rw [gateWords, ← foldl_words, List.foldl_map]
  rfl

theorem gateWords_inj {g h : GateCall} (hg : ∀ a ∈ g.args, IsPlain a) (hh : ∀ a ∈ h.args, IsPlain a)
    (hwords : gateWords g = gateWords h) : g.name = h.name ∧ g.args = h.args := by
  obtain ⟨hname, hargs⟩ := List.cons.inj hwords
  have hsame := map_eq_map_of_forall (g := id) (fun a ha b hb => argumentText_inj (hg a ha) (hh b hb)) hargs
  rw [List.map_id, List.map_id] at hsame
  exact ⟨hname, hsame⟩

/-! ## Declarations -/

end Jaqal

/-- What is printed of a selection: an index list as the range of the same positions, if it is one. -/
def Selection.printed : Selection → Selection
  | .indices positions =>
    match asSlice? positions with
    | some (start, stop, step) => .slice start stop step
    | none => .indices positions
  | selection => selection

def Register.printed (r : Register) : Register :=
  match r.kind with
  | .fundamental _ => r
  | .mapped source selection => ⟨r.name, .mapped source selection.printed⟩

namespace Jaqal

/-- The numbers between the brackets of a range. -/
def sliceFields (start stop step : Nat) : List Nat := if step = 1 then [start, stop] else [start, stop, step]

theorem sliceFields_inj {start stop step start' stop' step' : Nat}
    (h : sliceFields start stop step = sliceFields start' stop' step') :
    start = start' ∧ stop = stop' ∧ step = step' := by
  unfold sliceFields at h
  split at h
  · split at h
    · simp_all
    · simp at h
  · split at h
    · simp at h
    · simpa using h

theorem toList_sliceText (start stop step : Nat) :
    (sliceText start stop step).toList =
      '[' :: ([':'].intercalate ((sliceFields start stop step).map (Nat.toDigits 10)) ++ [']']) := by
  unfold sliceText sliceFields
  split
  · simp [toString_text]
  · simp [toString_text]

theorem sliceText_inj {start stop step start' stop' step' : Nat}
    (h : sliceText start stop step = sliceText start' stop' step') :
    start = start' ∧ stop = stop' ∧ step = step' := by
  have hfields : ∀ start stop step,
      ((([':'].intercalate ((sliceFields start stop step).map (Nat.toDigits 10))).splitOn ':')) =
        (sliceFields start stop step).map (Nat.toDigits 10) := by
    intro start stop step
    refine List.splitOn_intercalate ':' (fun l hl => ?_) ?_
    · obtain ⟨n, -, rfl⟩ := List.mem_map.1 hl
      exact notMem_toDigits n rfl
    · unfold sliceFields
      split
      · simp
      · simp
  rw [← String.toList_inj, toList_sliceText, toList_sliceText] at h
  have hinner := List.append_cancel_right (List.cons.inj h).2
  have hsplit := hfields start stop step
  rw [hinner, hfields] at hsplit
  exact sliceFields_inj ((List.map_inj_right fun _ _ hn => toDigits_inj hn).1 hsplit.symm)

/-- What follows the name of the source in a map declaration. -/
def selectionWord (s : Selection) : String :=
  match s.printed with
  | .slice start stop step => sliceText start stop step
  | _ => ""

/-- A selection that can be printed is the whole source or a range. -/
theorem selectionText_eq_ok {register : String} {s : Selection} {shown : String}
    (h : selectionText register s = .ok shown) :
    shown = selectionWord s ∧ ∀ positions, s.printed ≠ .indices positions := by
  cases s with
  | whole => exact ⟨(pure_eq_ok_iff.1 h).symm, by simp [Selection.printed]⟩
  | slice start stop step => exact ⟨(pure_eq_ok_iff.1 h).symm, by simp [Selection.printed]⟩
  | indices positions =>
    cases hslice : Selection.asSlice? positions with
    | none => simp [selectionText, hslice] at h
    | some slice =>
      have hshown : sliceText slice.1 slice.2.1 slice.2.2 = shown := by
        simpa only [selectionText, hslice, pure_eq_ok_iff] using h
      simp [selectionWord, Selection.printed, hslice, hshown]

theorem selectionText_printed (register : String) (s : Selection) :
    selectionText register s.printed = selectionText register s := by
  cases s with
  | whole => rfl
  | slice start stop step => rfl
  | indices positions =>
    cases hslice : Selection.asSlice? positions with
    | none => simp [Selection.printed, hslice]
    | some slice => simp [Selection.printed, selectionText, hslice]

theorem selectionWord_inj {s t : Selection} (hs : ∀ positions, s.printed ≠ .indices positions)
    (ht : ∀ positions, t.printed ≠ .indices positions) (h : selectionWord s = selectionWord t) :
    s.printed = t.printed := by
  have hne : ∀ start stop step, sliceText start stop step ≠ "" := by
    intro start stop step hempty
    have hlist := toList_sliceText start stop step
    rw [hempty] at hlist
    cases hlist
  unfold selectionWord at h
  generalize s.printed = p at hs h ⊢
  generalize t.printed = q at ht h ⊢
  cases p with
  | indices positions => exact absurd rfl (hs positions)
  | whole =>
    cases q with
    | indices positions => exact absurd rfl (ht positions)
    | whole => rfl
    | slice start stop step => exact absurd h.symm (hne start stop step)
  | slice start stop step =>
    cases q with
    | indices positions => exact absurd rfl (ht positions)
    | whole => exact absurd h (hne start stop step)
    | slice start' stop' step' =>
      obtain ⟨rfl, rfl, rfl⟩ := sliceText_inj h
      rfl

/-- What is printed of a selection is empty or begins with a bracket. -/
theorem head?_selectionWord (s : Selection) : ∀ c ∈ (selectionWord s).toList.head?, ¬ isNameChar c = true := by
  unfold selectionWord
  split
  · simp [toList_sliceText, isNameChar]
  · simp

theorem sourceWord_inj {source source' : String} {s t : Selection} (hsource : isName source = true)
    (hsource' : isName source' = true) (hs : ∀ positions, s.printed ≠ .indices positions)
    (ht : ∀ positions, t.printed ≠ .indices positions)
    (h : source ++ selectionWord s = source' ++ selectionWord t) :
    source = source' ∧ s.printed = t.printed := by
  rw [← String.toList_inj, String.toList_append, String.toList_append] at h
  obtain ⟨hleft, hright⟩ := append_inj_of_forall (isNameChar_of_mem hsource) (isNameChar_of_mem hsource')
    (head?_selectionWord s) (head?_selectionWord t) h
  exact ⟨String.toList_inj.1 hleft, selectionWord_inj hs ht (String.toList_inj.1 hright)⟩

theorem notMem_selectionWord {c : Char} (hdigit : c.isDigit = false) (hmark : c ∉ ['[', ':', ']']) (s : Selection) :
    c ∉ (selectionWord s).toList := by
  simp only [List.mem_cons, List.not_mem_nil, or_false, not_or] at hmark
  unfold selectionWord
  split
  · rw [toList_sliceText, sliceFields]
    split
    · simp [hmark, notMem_toDigits _ hdigit]
    · simp [hmark, notMem_toDigits _ hdigit]
  · simp

theorem isWord_sourceWord {source : String} (hsource : isName source = true) (s : Selection) :
    IsWord (source ++ selectionWord s) := by
  have hword := isWord_of_isName hsource
  rw [IsWord, String.toList_append, List.mem_append, List.mem_append, not_or, not_or]
  exact ⟨⟨hword.1, notMem_selectionWord rfl (by decide) s⟩, ⟨hword.2, notMem_selectionWord rfl (by decide) s⟩⟩

end Jaqal

/-- The names that a register prints. -/
def Register.names (r : Register) : List String :=
  match r.kind with
  | .fundamental _ => [r.name]
  | .mapped source _ => [r.name, source]

namespace Jaqal

def registerWords (r : Register) : List String :=
  match r.kind with
  | .fundamental size => ["register", Qubit.text ⟨r.name, size⟩]
  | .mapped source selection => ["map", r.name, source ++ selectionWord selection]

theorem isWord_keyword {word : String} (h : word ∈ keywords) : IsWord word := by
  revert word
  simp only [keywords, List.forall_mem_cons, IsWord]
  decide

theorem isWord_registerWords {r : Register} (hnames : ∀ name ∈ r.names, isName name = true) :
    ∀ w ∈ registerWords r, IsWord w := by
  obtain ⟨name, kind⟩ := r
  cases kind with
  | fundamental size =>
    have hname : isName name = true := hnames name (by simp [Register.names])
    simp only [registerWords, List.forall_mem_cons]
    exact ⟨isWord_keyword (by decide), isWord_qubitText hname, by simp⟩
  | mapped source selection =>
    have hname : isName name = true := hnames name (by simp [Register.names])
    have hsource : isName source = true := hnames source (by simp [Register.names])
    simp only [registerWords, List.forall_mem_cons]
    exact ⟨isWord_keyword (by decide), isWord_of_isName hname, isWord_sourceWord hsource selection, by simp⟩

theorem registerLine_eq_ok {r : Register} {line : String} (h : registerLine r = .ok line) :
    line = unwords (registerWords r) := by
  obtain ⟨name, kind⟩ := r
  cases kind with
  | fundamental size =>
    rw [← pure_eq_ok_iff.1 h, ← String.toList_inj, toList_unwords]
    simp [registerWords, toString_text, toList_qubitText]
  | mapped source selection =>
    obtain ⟨shown, hshown, hline⟩ := bind_eq_ok_iff.1 h
    rw [← pure_eq_ok_iff.1 hline, (selectionText_eq_ok hshown).1, ← String.toList_inj, toList_unwords]
    simp [registerWords, toString_text]

/-- The words of a register line determine what is printed of the register. -/
theorem registerWords_inj {r r' : Register} {line line' : String} (h : registerLine r = .ok line)
    (h' : registerLine r' = .ok line') (hnames : ∀ name ∈ r.names, isName name = true)
    (hnames' : ∀ name ∈ r'.names, isName name = true) (hwords : registerWords r = registerWords r') :
    r.printed = r'.printed := by
  obtain ⟨name, kind⟩ := r
  obtain ⟨name', kind'⟩ := r'
  cases kind with
  | fundamental size =>
    cases kind' with
    | fundamental size' =>
      have htext : Qubit.text ⟨name, size⟩ = Qubit.text ⟨name', size'⟩ := by simpa [registerWords] using hwords
      have hname : isName name = true := hnames name (by simp [Register.names])
      have hname' : isName name' = true := hnames' name' (by simp [Register.names])
      have hqubit := qubitText_inj (p := ⟨name, size⟩) (q := ⟨name', size'⟩) hname hname' htext
      obtain ⟨rfl, rfl⟩ := Qubit.mk.inj hqubit
      rfl
    | mapped source' selection' => simp [registerWords] at hwords
  | mapped source selection =>
    cases kind' with
    | fundamental size' => simp [registerWords] at hwords
    | mapped source' selection' =>
      obtain ⟨shown, hshown, -⟩ := bind_eq_ok_iff.1 h
      obtain ⟨shown', hshown', -⟩ := bind_eq_ok_iff.1 h'
      obtain ⟨rfl, hsource⟩ : name = name' ∧
          source ++ selectionWord selection = source' ++ selectionWord selection' := by
        simpa [registerWords] using hwords
      obtain ⟨rfl, hselection⟩ := sourceWord_inj (hnames source (by simp [Register.names]))
        (hnames' source' (by simp [Register.names])) (selectionText_eq_ok hshown).2
        (selectionText_eq_ok hshown').2 hsource
      simp only [Register.printed, hselection]

theorem registerLine_printed (r : Register) : registerLine r.printed = registerLine r := by
  obtain ⟨name, kind⟩ := r
  cases kind with
  | fundamental size => rfl
  | mapped source selection => simp only [registerLine, Register.printed, selectionText_printed]

/-- The words of a constant declaration. -/
def constantWords (entry : String × Binary64) : List String := ["let", entry.1, entry.2.text]

theorem isWord_constantWords {entry : String × Binary64} (hname : isName entry.1 = true)
    (hfinite : entry.2.isFinite = true) : ∀ w ∈ constantWords entry, IsWord w := by
  simp only [constantWords, List.forall_mem_cons]
  exact ⟨isWord_keyword (by decide), isWord_of_isName hname, isWord_numberText hfinite, by simp⟩

theorem constantWords_inj {entry entry' : String × Binary64} (hfinite : entry.2.isFinite = true)
    (hfinite' : entry'.2.isFinite = true) (h : constantWords entry = constantWords entry') : entry = entry' := by
  obtain ⟨hname, htext⟩ : entry.1 = entry'.1 ∧ entry.2.text = entry'.2.text := by simpa [constantWords] using h
  exact Prod.ext hname (numberText_inj hfinite hfinite' htext)

end Jaqal

end IonSchedule
