import Mathlib

/-! Stores that programs keep behind pointers and keys, and histories. An `Arena` hands out addresses
in order and never frees a cell, so an address stays valid for the arena's lifetime. A finite map is
Mathlib's `AList`; `emplace` is the insertion that leaves an existing key alone. A history is a list
that is only added to. -/

universe u v

/-- Cells addressed in allocation order. Cells beyond `size` hold the filler value. -/
structure Arena (α : Type u) where
  size : Nat
  cell : Nat → α

namespace Arena

variable {α : Type u}

def empty [Inhabited α] : Arena α := ⟨0, fun _ => default⟩

/-- The address the next allocation returns. -/
def next (m : Arena α) : Nat := m.size

def alloc (m : Arena α) (a : α) : Arena α := ⟨m.size + 1, Function.update m.cell m.size a⟩

def write (m : Arena α) (p : Nat) (a : α) : Arena α := ⟨m.size, Function.update m.cell p a⟩

@[simp] theorem size_empty [Inhabited α] : (empty : Arena α).size = 0 := rfl

@[simp] theorem size_alloc (m : Arena α) (a : α) : (m.alloc a).size = m.size + 1 := rfl

@[simp] theorem size_write (m : Arena α) (p : Nat) (a : α) : (m.write p a).size = m.size := rfl

@[simp] theorem cell_write_self (m : Arena α) (p : Nat) (a : α) : (m.write p a).cell p = a := by
  simp only [write, Function.update_self]

theorem cell_write_of_ne (m : Arena α) {p q : Nat} (h : q ≠ p) (a : α) :
    (m.write p a).cell q = m.cell q := by
  simp only [write, Function.update_of_ne h]

@[simp] theorem cell_alloc_self (m : Arena α) (a : α) : (m.alloc a).cell m.size = a := by
  simp only [alloc, Function.update_self]

theorem cell_alloc_of_lt (m : Arena α) {p : Nat} (h : p < m.size) (a : α) :
    (m.alloc a).cell p = m.cell p := by
  simp only [alloc, Function.update_of_ne (Nat.ne_of_lt h)]

@[simp] theorem write_write (m : Arena α) (p : Nat) (a b : α) :
    (m.write p a).write p b = m.write p b := by
  simp [write]

@[simp] theorem write_cell (m : Arena α) (p : Nat) : m.write p (m.cell p) = m := by
  simp [write]

/-- The sum of a measure over all cells. -/
def tally (m : Arena α) (f : α → Nat) : Nat := ∑ p ∈ Finset.range m.size, f (m.cell p)

theorem tally_alloc (m : Arena α) (a : α) (f : α → Nat) : (m.alloc a).tally f = m.tally f + f a := by
  unfold tally
  rw [size_alloc, Finset.sum_range_succ, cell_alloc_self]
  congr 1
  refine Finset.sum_congr rfl (fun p hp => ?_)
  rw [cell_alloc_of_lt m (Finset.mem_range.mp hp)]

/-- A change of one cell changes the sum by that cell's share. -/
theorem tally_of_others {m m' : Arena α} {p : Nat} (hp : p < m.size) (hsize : m'.size = m.size)
    (hothers : ∀ q, q ≠ p → m'.cell q = m.cell q) (f : α → Nat) :
    m'.tally f + f (m.cell p) = m.tally f + f (m'.cell p) := by
  have hmem : p ∈ Finset.range m.size := Finset.mem_range.mpr hp
  have hrest : ∑ q ∈ (Finset.range m.size).erase p, f (m'.cell q) =
      ∑ q ∈ (Finset.range m.size).erase p, f (m.cell q) := by
    refine Finset.sum_congr rfl (fun q hq => ?_)
    rw [hothers q (Finset.mem_erase.mp hq).1]
  unfold tally
  rw [hsize, ← Finset.add_sum_erase _ _ hmem, ← Finset.add_sum_erase _ (fun q => f (m.cell q)) hmem,
    hrest]
  omega

end Arena

/-- A finite map: Mathlib's association list with one value type for all keys. -/
abbrev FinMap (κ : Type u) (ν : Type v) := AList (fun _ : κ => ν)

namespace FinMap

variable {κ : Type u} {ν : Type v} [DecidableEq κ]

/-- `lookup` with a result type that does not mention the key. -/
def find (m : FinMap κ ν) (k : κ) : Option ν := AList.lookup k m

/-- Insertion that does nothing when the key is already bound. -/
def emplace (m : FinMap κ ν) (k : κ) (x : ν) : FinMap κ ν :=
  if k ∈ m then m else m.insert k x

@[simp] theorem find_empty (k : κ) : find (∅ : FinMap κ ν) k = none := AList.lookup_empty k

theorem find_eq_none {m : FinMap κ ν} {k : κ} : find m k = none ↔ k ∉ m := AList.lookup_eq_none

theorem mem_of_find {m : FinMap κ ν} {k : κ} {x : ν} (h : find m k = some x) : k ∈ m :=
  AList.lookup_isSome.mp (by rw [show AList.lookup k m = some x from h]; rfl)

theorem exists_find_of_mem {m : FinMap κ ν} {k : κ} (h : k ∈ m) : ∃ x, find m k = some x :=
  Option.isSome_iff_exists.mp (AList.lookup_isSome.mpr h)

theorem mem_iff_find {m : FinMap κ ν} {k : κ} : k ∈ m ↔ ∃ x, find m k = some x :=
  ⟨exists_find_of_mem, fun ⟨_, h⟩ => mem_of_find h⟩

theorem find_insert (m : FinMap κ ν) (k k' : κ) (x : ν) :
    find (m.insert k x) k' = if k' = k then some x else find m k' := by
  split_ifs with h
  · subst h
    exact AList.lookup_insert m
  · exact AList.lookup_insert_ne h

theorem find_erase (m : FinMap κ ν) (k k' : κ) :
    find (m.erase k) k' = if k' = k then none else find m k' := by
  split_ifs with h
  · subst h
    exact AList.lookup_erase k' m
  · exact AList.lookup_erase_ne h

theorem dlookup_kreplace (k k' : κ) (x : ν) (entries : List (Sigma fun _ : κ => ν)) :
    List.dlookup k' (List.kreplace k x entries) =
      if k' = k then (List.dlookup k entries).map (fun _ => x) else List.dlookup k' entries := by
  induction entries with
  | nil =>
      change List.dlookup k' [] = _
      simp
  | cons head rest ih =>
      obtain ⟨a, y⟩ := head
      unfold List.kreplace at ih ⊢
      by_cases ha : k = a
      · -- the entry that is replaced: the rest of the list is not looked at
        subst ha
        have hhit : (if k = (⟨k, y⟩ : Sigma fun _ : κ => ν).1 then
            some (⟨k, x⟩ : Sigma fun _ : κ => ν) else none) = some ⟨k, x⟩ := if_pos rfl
        rw [List.lookmap_cons_some _ rest hhit]
        by_cases hk : k' = k
        · subst hk
          simp
        · have hk' : ∀ z : ν, k' ≠ (⟨k, z⟩ : Sigma fun _ : κ => ν).1 := fun _ => hk
          rw [List.dlookup_cons_ne _ _ (hk' x), if_neg hk, List.dlookup_cons_ne _ _ (hk' y)]
      · have hmiss : (if k = (⟨a, y⟩ : Sigma fun _ : κ => ν).1 then
            some (⟨k, x⟩ : Sigma fun _ : κ => ν) else none) = none := if_neg ha
        rw [List.lookmap_cons_none _ rest hmiss]
        by_cases hk : k' = a
        · subst hk
          rw [List.dlookup_cons_eq, List.dlookup_cons_eq, if_neg (fun h => ha h.symm)]
        · have hk' : k' ≠ (⟨a, y⟩ : Sigma fun _ : κ => ν).1 := hk
          have ha' : k ≠ (⟨a, y⟩ : Sigma fun _ : κ => ν).1 := ha
          rw [List.dlookup_cons_ne _ _ hk', ih, List.dlookup_cons_ne _ _ hk',
            List.dlookup_cons_ne _ _ ha']

/-- Overwriting a bound key. -/
theorem find_replace {m : FinMap κ ν} {k : κ} (hk : k ∈ m) (k' : κ) (x : ν) :
    find (m.replace k x) k' = if k' = k then some x else find m k' := by
  obtain ⟨y, hy⟩ := exists_find_of_mem hk
  have hlookup : List.dlookup k m.entries = some y := hy
  have hreplace := dlookup_kreplace k k' x m.entries
  rw [hlookup, Option.map_some] at hreplace
  exact hreplace

theorem erase_of_notMem {m : FinMap κ ν} {k : κ} (h : k ∉ m) : m.erase k = m := by
  apply AList.ext
  exact List.kerase_of_notMem_keys h

theorem emplace_of_notMem {m : FinMap κ ν} {k : κ} (h : k ∉ m) (x : ν) :
    emplace m k x = m.insert k x := if_neg h

theorem emplace_of_mem {m : FinMap κ ν} {k : κ} (h : k ∈ m) (x : ν) : emplace m k x = m := if_pos h

theorem find_emplace (m : FinMap κ ν) (k k' : κ) (x : ν) :
    find (emplace m k x) k' = if k' = k then some ((find m k).getD x) else find m k' := by
  by_cases hk : k ∈ m
  · obtain ⟨y, hy⟩ := exists_find_of_mem hk
    rw [emplace_of_mem hk, hy]
    split_ifs with heq
    · rw [heq, hy]
      rfl
    · rfl
  · rw [emplace_of_notMem hk, find_insert, find_eq_none.mpr hk]
    rfl

end FinMap

/-! ### Histories -/

section History

variable {α : Type u} {old new : List α} {i : Nat}

theorem getElem?_of_isPrefix (h : old <+: new) (hi : i < old.length) : new[i]? = old[i]? := by
  obtain ⟨more, rfl⟩ := h
  exact List.getElem?_append_left hi

/-- What stands in a history stays there. -/
theorem getElem?_mono {a : α} (h : old <+: new) (ha : old[i]? = some a) : new[i]? = some a :=
  (getElem?_of_isPrefix h (List.getElem?_eq_some_iff.mp ha).1).trans ha

/-- Where the elements of a list differ in `f`, an element is found by it. -/
theorem index_eq_of_nodup_map {β : Type v} {f : α → β} (h : (old.map f).Nodup) {j : Nat} {a b : α}
    (hi : old[i]? = some a) (hj : old[j]? = some b) (hf : f a = f b) : i = j := by
  have hlt : i < (old.map f).length := by
    rw [List.length_map]
    exact (List.getElem?_eq_some_iff.mp hi).1
  refine (List.getElem?_inj hlt h).mp ?_
  rw [List.getElem?_map, List.getElem?_map, hi, hj, Option.map_some, Option.map_some, hf]

theorem nodup_map_of_isPrefix {β : Type v} {f : α → β} (h : (new.map f).Nodup)
    (hgrown : old <+: new) : (old.map f).Nodup :=
  (hgrown.map f).sublist.nodup h

end History
