import IonSchedule.Json.Printer
import IonSchedule.Json.Reader
import IonSchedule.Proofs.NumberText

/-! # JSON values as text

The compact and the pretty text of a value spell the same tokens, and the lexer gives these back: a token is
complete at the latest when the next one begins. The reader builds the value from its tokens, unless arrays and
objects nest deeper than its limit. So a value is read back from both of its texts. The brackets of a text nest
as deep as the value does.
-/
namespace IonSchedule.Json

theorem foldlM_cons_of_eq_some {σ α : Type} {f : σ → α → Option σ} {s t : σ} {a : α} (h : f s a = some t)
    (as : List α) : (a :: as).foldlM f s = as.foldlM f t := by
  rw [List.foldlM_cons, h]
  rfl

theorem foldlM_append_of_eq_some {σ α : Type} {f : σ → α → Option σ} {s t : σ} {as : List α}
    (h : as.foldlM f s = some t) (bs : List α) : (as ++ bs).foldlM f s = bs.foldlM f t := by
  rw [List.foldlM_append, h]
  rfl

/-- Values all of whose numbers can be written down, and which hold nothing that cannot be read. -/
inductive Writable : Json → Prop where
  | null : Writable .null
  | bool (b : Bool) : Writable (.bool b)
  | number {literal : Literal} (h : literal.IsWellFormed) : Writable (.number literal)
  | string (text : String) : Writable (.string text)
  | array {items : List Json} (h : ∀ v ∈ items, Writable v) : Writable (.array items)
  | object {entries : List (String × Json)} (h : ∀ entry ∈ entries, Writable entry.2) : Writable (.object entries)

mutual

/-- How deep arrays and objects nest in a value. -/
def depth : Json → Nat
  | .array items => itemsDepth items + 1
  | .object entries => entriesDepth entries + 1
  | _ => 0

def itemsDepth : List Json → Nat
  | [] => 0
  | v :: rest => max (depth v) (itemsDepth rest)

def entriesDepth : List (String × Json) → Nat
  | [] => 0
  | (_, v) :: rest => max (depth v) (entriesDepth rest)

end

mutual

/-- The tokens of a value in the order in which they are written. -/
def tokens : Json → List Token
  | .null | .unreadable => [.null]
  | .bool b => [.bool b]
  | .number literal => [.number literal]
  | .string text => [.string (some text)]
  | .array items => .openBracket :: (itemTokens items ++ [.closeBracket])
  | .object entries => .openBrace :: (entryTokens entries ++ [.closeBrace])

def itemTokens : List Json → List Token
  | [] => []
  | [v] => tokens v
  | v :: rest => tokens v ++ .comma :: itemTokens rest

def entryTokens : List (String × Json) → List Token
  | [] => []
  | [(key, v)] => .string (some key) :: .colon :: tokens v
  | (key, v) :: rest => .string (some key) :: .colon :: (tokens v ++ .comma :: entryTokens rest)

end

/-! ## Tokens from text -/

namespace Token

namespace Lexer

/-- The characters that end a word or a number. -/
def isDelimiter (c : Char) : Bool := !isLetter c && !isNumberChar c

/-- The tokens are complete as soon as a delimiter or the end of the text follows. -/
structure Settled (l : Lexer) (tokens : List Token) : Prop where
  finish : l.finish? = some tokens.reverse
  step : ∀ c, isDelimiter c = true → l.step? c = start? tokens c

theorem settled_idle (tokens : List Token) : Settled ⟨.idle, tokens⟩ tokens := ⟨rfl, fun _ _ => rfl⟩

theorem settled_word {letters : List Char} {t : Token} (h : ofWord? letters.reverse = some t)
    (tokens : List Token) : Settled ⟨.word letters, tokens⟩ (t :: tokens) where
  finish := by simp [finish?, h]
  step c hc := by
    have hletter : isLetter c = false := by simp_all [isDelimiter]
    simp [step?, hletter, h]

theorem settled_number {chars : List Char} {n : Literal} (h : Literal.ofChars? chars.reverse = some n)
    (tokens : List Token) : Settled ⟨.number chars, tokens⟩ (.number n :: tokens) where
  finish := by simp [finish?, h]
  step c hc := by
    have hnumber : isNumberChar c = false := by simp_all [isDelimiter]
    simp [step?, hnumber, h]

end Lexer

open Lexer

/-- The text spells the tokens: reading it adds them to the tokens before. -/
def Spells (cs : List Char) (ts : List Token) : Prop :=
  ∀ before, ∃ l : Lexer, cs.foldlM step? ⟨.idle, before⟩ = some l ∧ l.Settled (ts.reverse ++ before)

theorem ofChars?_of_spells {cs : List Char} {ts : List Token} (h : Spells cs ts) : ofChars? cs = some ts := by
  obtain ⟨l, hl, hsettled⟩ := h []
  have hfinish := hsettled.finish
  rw [List.append_nil, List.reverse_reverse] at hfinish
  simp only [ofChars?, initial, hl, Option.bind_some, hfinish]

namespace Spells

theorem nil : Spells [] [] := fun before => ⟨_, rfl, settled_idle before⟩

/-- A character that is a token by itself. -/
theorem cons {c : Char} {t : Token} (hc : ∀ tokens, start? tokens c = some (emit tokens t)) {cs : List Char}
    {ts : List Token} (h : Spells cs ts) : Spells (c :: cs) (t :: ts) := by
  intro before
  obtain ⟨l, hl, hsettled⟩ := h (t :: before)
  have hstep : step? ⟨.idle, before⟩ c = some ⟨.idle, t :: before⟩ := hc before
  refine ⟨l, ?_, ?_⟩
  · rw [foldlM_cons_of_eq_some hstep, hl]
  · rw [List.reverse_cons, List.append_assoc]
    exact hsettled

theorem blanks {bs : List Char} (hbs : ∀ c ∈ bs, isBlank c = true) {cs : List Char} {ts : List Token}
    (h : Spells cs ts) : Spells (bs ++ cs) ts := by
  induction bs with
  | nil => exact h
  | cons b bs ih =>
    intro before
    obtain ⟨l, hl, hsettled⟩ := ih (fun c hc => hbs c (List.mem_cons_of_mem b hc)) before
    have hstep : step? ⟨.idle, before⟩ b = some ⟨.idle, before⟩ := by
      simp [step?, start?, hbs b List.mem_cons_self]
    refine ⟨l, ?_, hsettled⟩
    rw [List.cons_append, foldlM_cons_of_eq_some hstep, hl]

/-- Texts may stand next to each other if the second one begins with a delimiter. -/
theorem append {cs ds : List Char} {c : Char} {ts us : List Token} (hcs : Spells cs ts) (hc : isDelimiter c = true)
    (hds : Spells (c :: ds) us) : Spells (cs ++ c :: ds) (ts ++ us) := by
  intro before
  obtain ⟨l, hl, hsettled⟩ := hcs before
  obtain ⟨m, hm, hdone⟩ := hds (ts.reverse ++ before)
  refine ⟨m, ?_, ?_⟩
  · rw [foldlM_append_of_eq_some hl, List.foldlM_cons, hsettled.step c hc]
    exact hm
  · rw [List.reverse_append, List.append_assoc]
    exact hdone

/-! ### Scalars -/

theorem null : Spells "null".toList [.null] := fun before => ⟨_, rfl, settled_word rfl before⟩

theorem bool (b : Bool) : Spells (boolChars b) [.bool b] := by
  intro before
  cases b with
  | true => exact ⟨_, rfl, settled_word rfl before⟩
  | false => exact ⟨_, rfl, settled_word rfl before⟩

theorem isNumberChar_of_mem_chars {n : Literal} (hn : n.IsWellFormed) : ∀ c ∈ n.chars, isNumberChar c = true := by
  intro c hc
  rcases Literal.isDigit_or_mem_of_mem_chars hn c hc with hdigit | hmark
  · simp [isNumberChar, hdigit]
  · simp only [List.mem_cons, List.not_mem_nil, or_false] at hmark
    rcases hmark with rfl | rfl | rfl | rfl
    all_goals rfl

theorem start?_number {c : Char} (hc : c = '-' ∨ c.isDigit = true) (before : List Token) :
    start? before c = some ⟨.number [c], before⟩ := by
  rcases hc with rfl | hdigit
  · rfl
  · have hne : ∀ d : Char, d.isDigit = false → c ≠ d := by
      rintro d hd rfl
      rw [hd] at hdigit
      cases hdigit
    have hblank : isBlank c = false := by
      simp [isBlank, hne ' ' rfl, hne '\t' rfl, hne '\r' rfl, hne '\n' rfl]
    simp [start?, hblank, hne '{' rfl, hne '}' rfl, hne '[' rfl, hne ']' rfl, hne ':' rfl, hne ',' rfl, hne '"' rfl,
      hdigit]

theorem foldlM_number {cs : List Char} (hcs : ∀ c ∈ cs, isNumberChar c = true) (read : List Char)
    (before : List Token) :
    cs.foldlM step? ⟨.number read, before⟩ = some ⟨.number (cs.reverse ++ read), before⟩ := by
  induction cs generalizing read with
  | nil => rfl
  | cons c cs ih =>
    have hstep : step? ⟨.number read, before⟩ c = some ⟨.number (c :: read), before⟩ := by
      simp [step?, hcs c List.mem_cons_self]
    rw [foldlM_cons_of_eq_some hstep, List.reverse_cons, List.append_assoc]
    exact ih (fun d hd => hcs d (List.mem_cons_of_mem c hd)) (c :: read)

theorem number {n : Literal} (hn : n.IsWellFormed) : Spells n.chars [.number n] := by
  intro before
  have hread := Literal.ofChars?_chars hn
  have hchars := isNumberChar_of_mem_chars hn
  obtain ⟨c, cs, hcs, hfirst⟩ := Literal.exists_chars_eq_cons hn
  rw [hcs] at hread hchars ⊢
  have hstep : step? ⟨.idle, before⟩ c = some ⟨.number [c], before⟩ := start?_number hfirst before
  refine ⟨⟨.number (cs.reverse ++ [c]), before⟩, ?_, settled_number ?_ before⟩
  · rw [foldlM_cons_of_eq_some hstep]
    exact foldlM_number (fun d hd => hchars d (List.mem_cons_of_mem c hd)) [c] before
  · rw [List.reverse_append, List.reverse_reverse]
    exact hread

theorem value?_digit {n : Nat} (hn : n < 16) : Hexadecimal.value? (Hexadecimal.digit n) = some n := by
  revert n
  decide

/-- A control character that has no short escape is read back from its code. -/
theorem foldlM_unicode {c : Char} (hc : c.toNat < 0x20) (cs : List Char) (before : List Token) :
    ['\\', 'u', '0', '0', Hexadecimal.digit (c.toNat / 16), Hexadecimal.digit (c.toNat % 16)].foldlM step?
      ⟨.string (.chars cs), before⟩ = some ⟨.string (.chars (c :: cs)), before⟩ := by
  have hzero : Hexadecimal.value? '0' = some 0 := rfl
  have hhigh := value?_digit (n := c.toNat / 16) (by omega)
  have hlow := value?_digit (n := c.toNat % 16) (by omega)
  have hcode : 16 * (c.toNat / 16) + c.toNat % 16 = c.toNat := Nat.div_add_mod _ _
  have hpair : Text.isHigh c.toNat = false ∧ Text.isLow c.toNat = false := by
    simp [Text.isHigh, Text.isLow]
    omega
  simp [List.foldlM_cons, step?, hzero, hhigh, hlow, hcode, Text.pushUnit, hpair, Char.ofNat_toNat]

/-- The escape of a character is read as the character. -/
theorem foldlM_escapeChar (c : Char) (cs : List Char) (before : List Token) :
    (escapeChar c).foldlM step? ⟨.string (.chars cs), before⟩ = some ⟨.string (.chars (c :: cs)), before⟩ := by
  by_cases hshort : c ∈ ['"', '\\', '\x08', '\x0c', '\n', '\r', '\t']
  · simp only [List.mem_cons, List.not_mem_nil, or_false] at hshort
    rcases hshort with rfl | rfl | rfl | rfl | rfl | rfl | rfl
    all_goals rfl
  · simp only [List.mem_cons, List.not_mem_nil, or_false, not_or] at hshort
    obtain ⟨hquote, hslash, hb, hf, hn, hr, ht⟩ := hshort
    simp only [escapeChar, hquote, hslash, hb, hf, hn, hr, ht, if_false]
    by_cases hcontrol : c.toNat < 0x20
    · rw [if_pos hcontrol]
      exact foldlM_unicode hcontrol cs before
    · rw [if_neg hcontrol]
      simp [step?, hquote, hslash, hcontrol, Text.push]

theorem foldlM_escaped (text cs : List Char) (before : List Token) :
    (text.flatMap escapeChar).foldlM step? ⟨.string (.chars cs), before⟩ =
      some ⟨.string (.chars (text.reverse ++ cs)), before⟩ := by
  induction text generalizing cs with
  | nil => rfl
  | cons c text ih =>
    rw [List.flatMap_cons, foldlM_append_of_eq_some (foldlM_escapeChar c cs before), List.reverse_cons,
      List.append_assoc]
    exact ih (c :: cs)

theorem string (text : String) : Spells (quoted text) [.string (some text)] := by
  intro before
  have hopen : step? ⟨.idle, before⟩ '"' = some ⟨.string (.chars []), before⟩ := rfl
  have hclose : ∀ cs, [ '"' ].foldlM step? ⟨.string (.chars cs), before⟩ =
      some ⟨.idle, .string (some (String.ofList cs.reverse)) :: before⟩ := fun _ => rfl
  refine ⟨_, ?_, settled_idle (.string (some text) :: before)⟩
  rw [quoted, foldlM_cons_of_eq_some hopen, foldlM_append_of_eq_some (foldlM_escaped text.toList [] before), hclose,
    List.append_nil, List.reverse_reverse, String.ofList_toList]

end Spells

end Token

open Token

/-! ## The two texts -/

theorem spells_compactItems {items : List Json} (h : ∀ v ∈ items, Spells (compactChars v) v.tokens) :
    Spells (compactItems items) (itemTokens items) := by
  induction items with
  | nil => exact Spells.nil
  | cons v rest ih =>
    cases rest with
    | nil => exact h v List.mem_cons_self
    | cons w rest =>
      have hrest := ih fun u hu => h u (List.mem_cons_of_mem v hu)
      exact (h v List.mem_cons_self).append rfl (hrest.cons fun _ => rfl)

theorem spells_compactEntries {entries : List (String × Json)}
    (h : ∀ entry ∈ entries, Spells (compactChars entry.2) entry.2.tokens) :
    Spells (compactEntries entries) (entryTokens entries) := by
  induction entries with
  | nil => exact Spells.nil
  | cons entry rest ih =>
    obtain ⟨key, v⟩ := entry
    have hv := h (key, v) List.mem_cons_self
    cases rest with
    | nil => exact (Spells.string key).append rfl (hv.cons fun _ => rfl)
    | cons next rest =>
      have hrest := ih fun e he => h e (List.mem_cons_of_mem (key, v) he)
      exact (Spells.string key).append rfl ((hv.append rfl (hrest.cons fun _ => rfl)).cons fun _ => rfl)

theorem spells_compactChars {v : Json} (hv : v.Writable) : Spells (compactChars v) v.tokens := by
  induction hv with
  | null => exact Spells.null
  | bool b => exact Spells.bool b
  | number h => exact Spells.number h
  | string text => exact Spells.string text
  | array h ih => exact ((spells_compactItems ih).append rfl (Spells.nil.cons fun _ => rfl)).cons fun _ => rfl
  | object h ih => exact ((spells_compactEntries ih).append rfl (Spells.nil.cons fun _ => rfl)).cons fun _ => rfl

theorem isBlank_of_mem_newline (depth : Nat) : ∀ c ∈ newline depth, Lexer.isBlank c = true := by
  intro c hc
  rcases List.mem_cons.1 hc with rfl | hc
  · rfl
  · rw [(List.mem_replicate.1 hc).2]
    rfl

theorem spells_prettyItems {depth : Nat} {items : List Json}
    (h : ∀ v ∈ items, Spells (prettyChars depth v) v.tokens) :
    Spells (prettyItems depth items) (itemTokens items) := by
  induction items with
  | nil => exact Spells.nil
  | cons v rest ih =>
    have hv := (h v List.mem_cons_self).blanks (isBlank_of_mem_newline depth)
    cases rest with
    | nil => exact hv
    | cons w rest =>
      have hrest := ih fun u hu => h u (List.mem_cons_of_mem v hu)
      exact hv.append rfl (hrest.cons fun _ => rfl)

theorem spells_prettyEntries {depth : Nat} {entries : List (String × Json)}
    (h : ∀ entry ∈ entries, Spells (prettyChars depth entry.2) entry.2.tokens) :
    Spells (prettyEntries depth entries) (entryTokens entries) := by
  induction entries with
  | nil => exact Spells.nil
  | cons entry rest ih =>
    obtain ⟨key, v⟩ := entry
    have hkey := (Spells.string key).blanks (isBlank_of_mem_newline depth)
    have hv := h (key, v) List.mem_cons_self
    have hblank : ∀ c ∈ [' '], Lexer.isBlank c = true := by simp [Lexer.isBlank]
    cases rest with
    | nil => exact hkey.append rfl ((hv.blanks hblank).cons fun _ => rfl)
    | cons next rest =>
      have hrest := ih fun e he => h e (List.mem_cons_of_mem (key, v) he)
      exact hkey.append rfl (((hv.append rfl (hrest.cons fun _ => rfl)).blanks hblank).cons fun _ => rfl)

/-- What closes an array or object in the pretty text stands on a line of its own. -/
theorem spells_closing {c : Char} {t : Token} (hc : ∀ tokens, Lexer.start? tokens c = some (Lexer.emit tokens t))
    (depth : Nat) : Spells (newline depth ++ [c]) [t] :=
  (Spells.nil.cons hc).blanks (isBlank_of_mem_newline depth)

theorem spells_prettyChars {v : Json} (hv : v.Writable) (depth : Nat) : Spells (prettyChars depth v) v.tokens := by
  induction hv generalizing depth with
  | null => exact Spells.null
  | bool b => exact Spells.bool b
  | number h => exact Spells.number h
  | string text => exact Spells.string text
  | @array items h ih =>
    cases items with
    | nil => exact (Spells.nil.cons fun _ => rfl).cons fun _ => rfl
    | cons v rest =>
      have hitems := spells_prettyItems fun w hw => ih w hw (depth + 1)
      simp only [prettyChars, List.isEmpty_cons, Bool.false_eq_true, if_false, List.append_assoc]
      exact (hitems.append rfl (spells_closing (fun _ => rfl) depth)).cons fun _ => rfl
  | @object entries h ih =>
    cases entries with
    | nil => exact (Spells.nil.cons fun _ => rfl).cons fun _ => rfl
    | cons entry rest =>
      have hentries := spells_prettyEntries fun e he => ih e he (depth + 1)
      simp only [prettyChars, List.isEmpty_cons, Bool.false_eq_true, if_false, List.append_assoc]
      exact (hentries.append rfl (spells_closing (fun _ => rfl) depth)).cons fun _ => rfl

/-! ## Values from tokens -/

namespace Reader

variable {limit : Nat}

theorem exists_tokens_eq_cons (v : Json) : ∃ t ts, v.tokens = t :: ts ∧ t ≠ .closeBracket := by
  cases v with
  | null => exact ⟨_, _, rfl, by simp⟩
  | bool b => exact ⟨_, _, rfl, by simp⟩
  | number literal => exact ⟨_, _, rfl, by simp⟩
  | string text => exact ⟨_, _, rfl, by simp⟩
  | array items => exact ⟨_, _, rfl, by simp⟩
  | object entries => exact ⟨_, _, rfl, by simp⟩
  | unreadable => exact ⟨_, _, rfl, by simp⟩

theorem exists_itemTokens_eq_cons (v : Json) (rest : List Json) :
    ∃ t ts, itemTokens (v :: rest) = t :: ts ∧ t ≠ .closeBracket := by
  obtain ⟨t, ts, hv, ht⟩ := exists_tokens_eq_cons v
  cases rest with
  | nil => exact ⟨t, ts, hv, ht⟩
  | cons w rest =>
    refine ⟨t, ts ++ .comma :: itemTokens (w :: rest), ?_, ht⟩
    rw [itemTokens, hv]
    · rfl
    · simp

/-- The first item of an array is read like any other value. -/
theorem foldlM_firstItem (v : Json) (rest : List Json) (stack : List Frame) :
    (itemTokens (v :: rest)).foldlM (step? limit) (.firstItem stack) =
      (itemTokens (v :: rest)).foldlM (step? limit) (.value (.array [] :: stack)) := by
  obtain ⟨t, ts, htokens, ht⟩ := exists_itemTokens_eq_cons v rest
  have hstep : step? limit (.firstItem stack) t = step? limit (.value (.array [] :: stack)) t := by
    cases t with
    | closeBracket => exact absurd rfl ht
    | _ => rfl
  rw [htokens, List.foldlM_cons, List.foldlM_cons, hstep]

/-- The first key of an object is read like any other key. -/
theorem foldlM_firstKey (entry : String × Json) (rest : List (String × Json)) (stack : List Frame) :
    (entryTokens (entry :: rest)).foldlM (step? limit) (.firstKey stack) =
      (entryTokens (entry :: rest)).foldlM (step? limit) (.nextKey (some []) stack) := by
  obtain ⟨key, v⟩ := entry
  cases rest with
  | nil => rfl
  | cons next rest => rfl

/-- Reads a value: the tokens lead from where it is awaited to where it is complete. -/
def Reads (limit : Nat) (v : Json) : Prop :=
  ∀ stack, stack.length + v.depth ≤ limit → v.tokens.foldlM (step? limit) (.value stack) = some (complete v stack)

theorem foldlM_itemTokens {v : Json} {rest : List Json} (h : ∀ w ∈ v :: rest, Reads limit w) (read : List Json)
    {stack : List Frame} (hdepth : stack.length + 1 + itemsDepth (v :: rest) ≤ limit) :
    (itemTokens (v :: rest)).foldlM (step? limit) (.value (.array read :: stack)) =
      some (.afterItem ((v :: rest).reverse ++ read) stack) := by
  induction rest generalizing v read with
  | nil =>
    simp only [itemsDepth] at hdepth
    exact h v List.mem_cons_self (.array read :: stack) (by simp only [List.length_cons]; omega)
  | cons w rest ih =>
    simp only [itemsDepth] at hdepth
    have hv := h v List.mem_cons_self (.array read :: stack) (by simp only [List.length_cons]; omega)
    have hrest := ih (fun u hu => h u (List.mem_cons_of_mem v hu)) (v :: read) (by simp only [itemsDepth]; omega)
    have hcomma : step? limit (complete v (.array read :: stack)) .comma =
        some (.value (.array (v :: read) :: stack)) := rfl
    rw [show itemTokens (v :: w :: rest) = v.tokens ++ .comma :: itemTokens (w :: rest) from rfl,
      foldlM_append_of_eq_some hv, foldlM_cons_of_eq_some hcomma, hrest]
    simp

theorem foldlM_entryTokens {entry : String × Json} {rest : List (String × Json)}
    (h : ∀ e ∈ entry :: rest, Reads limit e.2) (read : List (String × Json)) {stack : List Frame}
    (hdepth : stack.length + 1 + entriesDepth (entry :: rest) ≤ limit) :
    (entryTokens (entry :: rest)).foldlM (step? limit) (.nextKey (some read) stack) =
      some (.afterEntry (some ((entry :: rest).reverse ++ read)) stack) := by
  induction rest generalizing entry read with
  | nil =>
    obtain ⟨key, v⟩ := entry
    simp only [entriesDepth] at hdepth
    exact h (key, v) List.mem_cons_self (.object (some read) (some key) :: stack)
      (by simp only [List.length_cons]; omega)
  | cons next rest ih =>
    obtain ⟨key, v⟩ := entry
    simp only [entriesDepth] at hdepth
    have hv := h (key, v) List.mem_cons_self (.object (some read) (some key) :: stack)
      (by simp only [List.length_cons]; omega)
    have hrest := ih (fun e he => h e (List.mem_cons_of_mem (key, v) he)) ((key, v) :: read)
      (by simp only [entriesDepth]; omega)
    have hkey : step? limit (.nextKey (some read) stack) (.string (some key)) =
        some (.colon (some read) (some key) stack) :=
      rfl
    have hcolon : step? limit (.colon (some read) (some key) stack) .colon =
        some (.value (.object (some read) (some key) :: stack)) := rfl
    have hcomma : step? limit (complete v (.object (some read) (some key) :: stack)) .comma =
        some (.nextKey (some ((key, v) :: read)) stack) := rfl
    rw [show entryTokens ((key, v) :: next :: rest) =
        .string (some key) :: .colon :: (v.tokens ++ .comma :: entryTokens (next :: rest)) from rfl,
      foldlM_cons_of_eq_some hkey, foldlM_cons_of_eq_some hcolon, foldlM_append_of_eq_some hv,
      foldlM_cons_of_eq_some hcomma, hrest]
    simp

theorem reads_array {items : List Json} (h : ∀ v ∈ items, Reads limit v) : Reads limit (.array items) := by
  intro stack hdepth
  simp only [depth] at hdepth
  have hopen : step? limit (.value stack) .openBracket = some (.firstItem stack) := rfl
  have hend : ∀ read, endArray limit read stack = complete (.array read.reverse) stack := by
    intro read
    rw [endArray, if_pos (by omega)]
  rw [tokens, foldlM_cons_of_eq_some hopen]
  cases items with
  | nil =>
    have hclose : step? limit (.firstItem stack) .closeBracket = some (endArray limit [] stack) := rfl
    rw [itemTokens, List.nil_append, foldlM_cons_of_eq_some hclose, hend]
    rfl
  | cons v rest =>
    have hitems := (foldlM_firstItem v rest stack).trans (foldlM_itemTokens h [] (by omega))
    have hclose : step? limit (.afterItem ((v :: rest).reverse ++ []) stack) .closeBracket =
        some (endArray limit ((v :: rest).reverse ++ []) stack) := rfl
    rw [foldlM_append_of_eq_some hitems, foldlM_cons_of_eq_some hclose, hend, List.append_nil,
      List.reverse_reverse]
    rfl

theorem reads_object {entries : List (String × Json)} (h : ∀ e ∈ entries, Reads limit e.2) :
    Reads limit (.object entries) := by
  intro stack hdepth
  simp only [depth] at hdepth
  have hopen : step? limit (.value stack) .openBrace = some (.firstKey stack) := rfl
  have hend : ∀ read, endObject limit (some read) stack = complete (.object read.reverse) stack := by
    intro read
    simp only [endObject]
    rw [if_pos (by omega)]
  rw [tokens, foldlM_cons_of_eq_some hopen]
  cases entries with
  | nil =>
    have hclose : step? limit (.firstKey stack) .closeBrace = some (endObject limit (some []) stack) := rfl
    rw [entryTokens, List.nil_append, foldlM_cons_of_eq_some hclose, hend]
    rfl
  | cons entry rest =>
    have hentries := (foldlM_firstKey entry rest stack).trans (foldlM_entryTokens h [] (by omega))
    have hclose : step? limit (.afterEntry (some ((entry :: rest).reverse ++ [])) stack) .closeBrace =
        some (endObject limit (some ((entry :: rest).reverse ++ [])) stack) := rfl
    rw [foldlM_append_of_eq_some hentries, foldlM_cons_of_eq_some hclose, hend, List.append_nil,
      List.reverse_reverse]
    rfl

theorem reads_of_writable {v : Json} (hv : v.Writable) : Reads limit v := by
  induction hv with
  | null => exact fun _ _ => rfl
  | bool b => exact fun _ _ => rfl
  | number h => exact fun _ _ => rfl
  | string text => exact fun _ _ => rfl
  | array h ih => exact reads_array ih
  | object h ih => exact reads_object ih

end Reader

/-- A value is read back from any text that spells its tokens, if it does not nest too deep. -/
theorem parse?_of_spells {v : Json} (hv : v.Writable) (hdepth : v.depth ≤ maxDepth) {cs : List Char}
    (hcs : Spells cs v.tokens) : parse? (String.ofList cs) = some v := by
  have hreads := Reader.reads_of_writable hv [] (by simpa using hdepth)
  simp only [parse?, parseWithin?, String.toList_ofList, Token.ofChars?_of_spells hcs, Option.bind_some, ofTokens?,
    Reader.start, hreads]
  rfl

theorem parse?_compact {v : Json} (hv : v.Writable) (hdepth : v.depth ≤ maxDepth) : parse? v.compact = some v :=
  parse?_of_spells hv hdepth (spells_compactChars hv)

theorem parse?_pretty {v : Json} (hv : v.Writable) (hdepth : v.depth ≤ maxDepth) : parse? v.pretty = some v :=
  parse?_of_spells hv hdepth (spells_prettyChars hv 0)

/-! ## How deep a text nests -/

theorem induction {motive : Json → Prop} (null : motive .null) (bool : ∀ b, motive (.bool b))
    (number : ∀ literal, motive (.number literal)) (string : ∀ text, motive (.string text))
    (array : ∀ items, (∀ v ∈ items, motive v) → motive (.array items))
    (object : ∀ entries, (∀ entry ∈ entries, motive entry.2) → motive (.object entries))
    (unreadable : motive .unreadable) : ∀ v, motive v := by
  intro v
  refine @Json.rec motive (fun items => ∀ v ∈ items, motive v) (fun entries => ∀ entry ∈ entries, motive entry.2)
    (fun entry => motive entry.2) null bool number string array object unreadable ?_ ?_ ?_ ?_ ?_ v
  · simp
  · exact fun v rest hv hrest => List.forall_mem_cons.2 ⟨hv, hrest⟩
  · simp
  · exact fun entry rest hentry hrest => List.forall_mem_cons.2 ⟨hentry, hrest⟩
  · exact fun key v hv => hv

namespace Token

/-- How many brackets are open after a token, if so many were open before it. -/
def openAfter (level : Nat) : Token → Nat
  | .openBrace | .openBracket => level + 1
  | .closeBrace | .closeBracket => level - 1
  | _ => level

/-- The most brackets that are open at once. -/
def deepest (level : Nat) : List Token → Nat
  | [] => level
  | t :: rest => max level (deepest (t.openAfter level) rest)

theorem le_deepest (level : Nat) (ts : List Token) : level ≤ deepest level ts := by
  cases ts with
  | nil => exact Nat.le_refl level
  | cons t rest => exact Nat.le_max_left level _

/-- Tokens that nest so deep and leave no bracket open. -/
def Nests (ts : List Token) (depth : Nat) : Prop :=
  ∀ level rest, deepest level (ts ++ rest) = max (level + depth) (deepest level rest)

theorem nests_nil : Nests [] 0 := fun level rest => (Nat.max_eq_right (le_deepest level rest)).symm

theorem nests_of_openAfter {t : Token} (h : ∀ level, t.openAfter level = level) : Nests [t] 0 := by
  intro level rest
  rw [List.singleton_append, deepest, h]
  rfl

theorem Nests.append {ts us : List Token} {m n : Nat} (hts : Nests ts m) (hus : Nests us n) :
    Nests (ts ++ us) (max m n) := by
  intro level rest
  rw [List.append_assoc, hts, hus]
  omega

theorem Nests.bracket {ts : List Token} {depth : Nat} {opening closing : Token} (h : Nests ts depth)
    (hopening : ∀ level, opening.openAfter level = level + 1)
    (hclosing : ∀ level, closing.openAfter level = level - 1) :
    Nests (opening :: (ts ++ [closing])) (depth + 1) := by
  intro level rest
  have hle := le_deepest level rest
  rw [List.cons_append, deepest, hopening, List.append_assoc, h, List.singleton_append, deepest, hclosing,
    Nat.add_sub_cancel]
  omega

end Token

open Token

theorem nests_itemTokens {items : List Json} (h : ∀ v ∈ items, Nests v.tokens v.depth) :
    Nests (itemTokens items) (itemsDepth items) := by
  induction items with
  | nil => exact nests_nil
  | cons v rest ih =>
    obtain ⟨hv, hrest⟩ := List.forall_mem_cons.1 h
    cases rest with
    | nil => simpa [itemTokens, itemsDepth] using hv
    | cons w rest =>
      have hcomma : Nests [Token.comma] 0 := nests_of_openAfter fun _ => rfl
      have hboth := hv.append (hcomma.append (ih hrest))
      rw [Nat.zero_max] at hboth
      exact hboth

theorem nests_entryTokens {entries : List (String × Json)}
    (h : ∀ entry ∈ entries, Nests entry.2.tokens entry.2.depth) :
    Nests (entryTokens entries) (entriesDepth entries) := by
  induction entries with
  | nil => exact nests_nil
  | cons entry rest ih =>
    obtain ⟨hv, hrest⟩ := List.forall_mem_cons.1 h
    have hkey : Nests [Token.string (some entry.1), Token.colon] 0 :=
      (nests_of_openAfter fun _ => rfl).append (nests_of_openAfter fun _ => rfl)
    have hentry := hkey.append hv
    rw [Nat.zero_max] at hentry
    cases rest with
    | nil => simpa [entryTokens, entriesDepth] using hentry
    | cons second rest =>
      have hcomma : Nests [Token.comma] 0 := nests_of_openAfter fun _ => rfl
      have hboth := hentry.append (hcomma.append (ih hrest))
      rw [Nat.zero_max] at hboth
      exact hboth

theorem nests_tokens (v : Json) : Nests v.tokens v.depth := by
  induction v using Json.induction with
  | array items ih => exact (nests_itemTokens ih).bracket (fun _ => rfl) fun _ => rfl
  | object entries ih => exact (nests_entryTokens ih).bracket (fun _ => rfl) fun _ => rfl
  | _ => exact nests_of_openAfter fun _ => rfl

/-- How deep the brackets of a text nest. Those within strings are no brackets. -/
def nesting (text : String) : Nat := ((Token.ofChars? text.toList).map (deepest 0)).getD 0

theorem nesting_pretty {v : Json} (hv : v.Writable) : nesting v.pretty = v.depth := by
  have htokens : deepest 0 v.tokens = v.depth := by
    have hnests := nests_tokens v 0 []
    simpa [deepest] using hnests
  rw [nesting, pretty, String.toList_ofList, Token.ofChars?_of_spells (spells_prettyChars hv 0), Option.map_some,
    Option.getD_some, htokens]

end IonSchedule.Json
