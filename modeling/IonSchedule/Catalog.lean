/-! # Catalogs

A catalog lists items in the order in which their names were first declared, and no two of its items share a name.
Putting an item whose name is already listed replaces the old item where it stands; any other item goes to the end.
A table is a catalog of pairs, looked up by its first component.
-/
namespace IonSchedule

/-- Items with pairwise distinct names, in order of declaration. -/
structure Catalog {α : Type} (name : α → String) where
  items : List α
  distinct : (items.map name).Nodup

namespace Catalog

variable {α : Type} {name : α → String}

theorem eq_of_items_eq {c d : Catalog name} (h : c.items = d.items) : c = d := by
  cases c; cases d; cases h; rfl

def empty : Catalog name := ⟨[], List.nodup_nil⟩

instance : Inhabited (Catalog name) := ⟨empty⟩

def size (c : Catalog name) : Nat := c.items.length

def isEmpty (c : Catalog name) : Bool := c.items.isEmpty

def names (c : Catalog name) : List String := c.items.map name

def find? (c : Catalog name) (key : String) : Option α := c.items.find? fun a => name a = key

def contains (c : Catalog name) (key : String) : Bool := c.items.any fun a => name a = key

theorem contains_iff {c : Catalog name} {key : String} : c.contains key = true ↔ key ∈ c.names := by
  simp [contains, names]

theorem find?_isSome {c : Catalog name} {key : String} : (c.find? key).isSome = c.contains key := by
  rw [Bool.eq_iff_iff]; simp [find?, contains]

theorem name_of_find? {c : Catalog name} {key : String} {a : α} (h : c.find? key = some a) : name a = key := by
  simpa using List.find?_some h

/-- Replaces the item of the same name where it stands, or appends. -/
def putItem (name : α → String) (a : α) : List α → List α
  | [] => [a]
  | b :: rest => if name b = name a then a :: rest else b :: putItem name a rest

theorem map_putItem (a : α) (items : List α) :
    (putItem name a items).map name =
      if name a ∈ items.map name then items.map name else items.map name ++ [name a] := by
  induction items with
  | nil => simp [putItem]
  | cons b rest ih =>
    by_cases h : name b = name a
    · simp [putItem, h]
    · have h' : ¬ name a = name b := fun e => h e.symm
      by_cases hm : name a ∈ rest.map name
      · simp only [putItem, h, if_false, List.map_cons, ih, hm, if_true, List.mem_cons, or_true]
      · simp only [putItem, h, if_false, List.map_cons, ih, hm, List.mem_cons, h', or_self, List.cons_append]

theorem nodup_putItem {a : α} {items : List α} (h : (items.map name).Nodup) :
    ((putItem name a items).map name).Nodup := by
  rw [map_putItem]
  split
  · exact h
  · rename_i hm
    rw [List.nodup_append]
    exact ⟨h, by simp, fun x hx y hy e => hm (by simp_all)⟩

def put (c : Catalog name) (a : α) : Catalog name := ⟨putItem name a c.items, nodup_putItem c.distinct⟩

def ofList (items : List α) : Catalog name := items.foldl put empty

theorem putItem_of_fresh {a : α} {items : List α} (h : name a ∉ items.map name) :
    putItem name a items = items ++ [a] := by
  induction items with
  | nil => rfl
  | cons b rest ih =>
    have hb : ¬ name b = name a := fun e => h (by simp [e])
    have hr : name a ∉ rest.map name := fun m => h (by simp only [List.map_cons, List.mem_cons]; exact Or.inr m)
    simp [putItem, hb, ih hr]

/-- A list whose names are distinct is kept as it is. -/
theorem items_ofList {items : List α} (h : (items.map name).Nodup) :
    (ofList items : Catalog name).items = items := by
  suffices H : ∀ (rest : List α) (c : Catalog name), ((c.items ++ rest).map name).Nodup →
      (rest.foldl put c).items = c.items ++ rest by
    simpa [ofList, empty] using H items empty (by simpa [empty] using h)
  intro rest
  induction rest with
  | nil => intro c _; simp
  | cons a rest ih =>
    intro c hc
    have hfresh : name a ∉ c.items.map name := by
      rw [List.map_append, List.nodup_append] at hc
      exact fun m => hc.2.2 _ m _ (by simp) rfl
    have hput : (c.put a).items = c.items ++ [a] := putItem_of_fresh hfresh
    rw [List.foldl_cons, ih (c.put a) (by rw [hput]; simpa using hc), hput]
    simp

theorem ofList_items (c : Catalog name) : ofList c.items = c := eq_of_items_eq (items_ofList c.distinct)

end Catalog

/-- Values filed under distinct names, in order of declaration. -/
abbrev Table (α : Type) := Catalog (Prod.fst : String × α → String)

namespace Table

variable {α β ε : Type}

def get? (t : Table α) (key : String) : Option α := (t.find? key).map Prod.snd

/-- Files a value; a name that is already there keeps its place. -/
def insert (t : Table α) (key : String) (value : α) : Table α := t.put (key, value)

def values (t : Table α) : List α := t.items.map Prod.snd

theorem names_insert (t : Table α) (key : String) (value : α) :
    (t.insert key value).names = if key ∈ t.names then t.names else t.names ++ [key] :=
  Catalog.map_putItem (key, value) t.items

theorem get?_insert (t : Table α) (key name : String) (value : α) :
    (t.insert key value).get? name = if name = key then some value else t.get? name := by
  have hfind : ∀ items : List (String × α),
      ((Catalog.putItem Prod.fst (key, value) items).find? fun e => e.1 = name).map Prod.snd =
        if name = key then some value else (items.find? fun e => e.1 = name).map Prod.snd := by
    intro items
    induction items with
    | nil =>
      by_cases hname : name = key
      · simp [Catalog.putItem, hname]
      · simp [Catalog.putItem, hname, Ne.symm hname]
    | cons e rest ih =>
      by_cases hkey : e.1 = key
      · by_cases hname : name = key
        · simp [Catalog.putItem, hkey, hname]
        · simp [Catalog.putItem, hkey, hname, Ne.symm hname]
      · by_cases he : e.1 = name
        · have hname : name ≠ key := he ▸ hkey
          simp [Catalog.putItem, he, hname]
        · simp only [Catalog.putItem, hkey, if_false, List.find?_cons, he, decide_false]
          exact ih
  exact hfind t.items

/-- What is filed under a new name hides nothing. -/
theorem get?_insert_of_get? {t : Table α} {key name : String} {a value : α} (hfresh : key ∉ t.names)
    (h : t.get? name = some a) : (t.insert key value).get? name = some a := by
  have hname : name ≠ key := by
    rintro rfl
    obtain ⟨entry, hfind, -⟩ := Option.map_eq_some_iff.1 h
    refine hfresh (Catalog.contains_iff.1 ?_)
    rw [← Catalog.find?_isSome, hfind, Option.isSome_some]
  rw [get?_insert, if_neg hname, h]

def traverseItems (f : α → Except ε β) : List (String × α) → Except ε (List (String × β))
  | [] => .ok []
  | (key, a) :: rest =>
    match f a with
    | .error e => .error e
    | .ok b =>
      match traverseItems f rest with
      | .error e => .error e
      | .ok bs => .ok ((key, b) :: bs)

theorem keys_of_traverseItems {f : α → Except ε β} {items : List (String × α)} {out : List (String × β)}
    (h : traverseItems f items = .ok out) : out.map Prod.fst = items.map Prod.fst := by
  induction items generalizing out with
  | nil => simp only [traverseItems, Except.ok.injEq] at h; simp [← h]
  | cons entry rest ih =>
    obtain ⟨key, a⟩ := entry
    simp only [traverseItems] at h
    split at h
    · exact nomatch h
    · split at h
      · exact nomatch h
      · rename_i bs hbs
        simp only [Except.ok.injEq] at h
        simp [← h, ih hbs]

/-- Replaces every value, keeping names and order; the first failure is the result. -/
def traverse (f : α → Except ε β) (t : Table α) : Except ε (Table β) :=
  match h : traverseItems f t.items with
  | .error e => .error e
  | .ok out => .ok ⟨out, by rw [keys_of_traverseItems h]; exact t.distinct⟩

/-- Replaces every value, keeping names and order. -/
def map (f : α → β) (t : Table α) : Table β :=
  ⟨t.items.map fun entry => (entry.1, f entry.2), by
    have h : (t.items.map fun entry => (entry.1, f entry.2)).map Prod.fst = t.items.map Prod.fst := by simp
    rw [h]; exact t.distinct⟩

end Table

end IonSchedule
