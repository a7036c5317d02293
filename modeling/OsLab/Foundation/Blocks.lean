import Mathlib.Data.Finmap
import OsLab.Foundation.LinkedQueue

/-! Blocks of memory that are allocated, read and freed. To free or to read what is not allocated is
`none`, so that what runs through frees every block once at most. -/

namespace OsLab

abbrev Blocks (α : Type*) := Finmap fun _ : Addr => α

namespace Blocks

variable {α : Type*}

/-- `malloc`, with the block's first value. -/
def store (malloc : Blocks α → Addr) (b : Blocks α) (x : α) : Addr × Blocks α :=
  (malloc b, b.insert (malloc b) x)

def free (b : Blocks α) (a : Addr) : Option (Blocks α) := if a ∈ b then some (b.erase a) else none

def freeAll : List Addr → Blocks α → Option (Blocks α)
  | [], b => some b
  | a :: as, b => (free b a).bind (freeAll as)

def Holds (b : Blocks α) (cells : Multiset (Addr × α)) : Prop :=
  b.entries = cells.map fun c => ⟨c.1, c.2⟩

variable {b : Blocks α} {cells : Multiset (Addr × α)} {a : Addr} {x : α}

theorem holds_empty : Holds (∅ : Blocks α) 0 := rfl

theorem Holds.card (h : Holds b cells) : b.keys.card = cells.card := by
  have hkeys : b.keys.val = b.entries.map Sigma.fst := rfl
  rw [Finset.card_def, hkeys, h, Multiset.card_map, Multiset.card_map]

theorem Holds.lookup_iff (h : Holds b cells) : b.lookup a = some x ↔ (a, x) ∈ cells := by
  rw [Finmap.lookup_eq_some_iff, h, Multiset.mem_map]
  constructor
  · rintro ⟨c, hc, heq⟩
    cases heq
    exact hc
  · exact fun hmem => ⟨_, hmem, rfl⟩

theorem Holds.lookup (h : Holds b cells) (hmem : (a, x) ∈ cells) : b.lookup a = some x :=
  h.lookup_iff.mpr hmem

theorem Holds.insert (h : Holds b cells) (ha : a ∉ b) : Holds (b.insert a x) ((a, x) ::ₘ cells) := by
  rw [Holds, Finmap.entries_insert_of_notMem ha, h, Multiset.map_cons]

theorem Holds.store (h : Holds b cells) {malloc : Blocks α → Addr} (hfresh : ∀ b, malloc b ∉ b)
    (x : α) : Holds (store malloc b x).2 ((malloc b, x) ::ₘ cells) := h.insert (hfresh b)

theorem insert_erase (b : Blocks α) (a : Addr) (x : α) : (b.erase a).insert a x = b.insert a x := by
  refine Finmap.ext_lookup fun c => ?_
  rcases eq_or_ne c a with rfl | hne
  · rw [Finmap.lookup_insert, Finmap.lookup_insert]
  · rw [Finmap.lookup_insert_of_ne _ hne, Finmap.lookup_insert_of_ne _ hne,
      Finmap.lookup_erase_ne hne]

theorem insert_of_lookup (hlookup : b.lookup a = some x) : b.insert a x = b := by
  refine Finmap.ext_lookup fun c => ?_
  rcases eq_or_ne c a with rfl | hne
  · rw [Finmap.lookup_insert, hlookup]
  · rw [Finmap.lookup_insert_of_ne _ hne]

theorem Holds.erase (h : Holds b ((a, x) ::ₘ cells)) : Holds (b.erase a) cells := by
  have hentries := Finmap.entries_insert_of_notMem (b := x) (Finmap.notMem_erase_self (a := a) (s := b))
  rw [insert_erase, insert_of_lookup (h.lookup (Multiset.mem_cons_self _ _)), h,
    Multiset.map_cons] at hentries
  exact ((Multiset.cons_inj_right _).mp hentries).symm

theorem Holds.free (h : Holds b ((a, x) ::ₘ cells)) : ∃ b', free b a = some b' ∧ Holds b' cells := by
  have hlookup := h.lookup (Multiset.mem_cons_self _ _)
  exact ⟨_, if_pos (Finmap.mem_iff.mpr ⟨x, hlookup⟩), h.erase⟩

theorem Holds.overwrite (h : Holds b ((a, x) ::ₘ cells)) (y : α) :
    Holds (b.insert a y) ((a, y) ::ₘ cells) := by
  rw [← insert_erase]
  exact h.erase.insert Finmap.notMem_erase_self

theorem Holds.freeAll {freed : List (Addr × α)} (h : Holds b (↑freed + cells)) :
    ∃ b', freeAll (freed.map Prod.fst) b = some b' ∧ Holds b' cells := by
  induction freed generalizing b with
  | nil =>
    rw [Multiset.coe_nil, zero_add] at h
    exact ⟨b, rfl, h⟩
  | cons c freed ih =>
    rw [← Multiset.cons_coe, Multiset.cons_add] at h
    obtain ⟨b₁, hfree, h₁⟩ := h.free
    obtain ⟨b₂, hall, h₂⟩ := ih h₁
    exact ⟨b₂, by rw [List.map_cons, Blocks.freeAll, hfree, Option.bind_some, hall], h₂⟩

def nextAddr (b : Blocks α) : Addr := b.keys.sup id + 1

theorem nextAddr_notMem (b : Blocks α) : nextAddr b ∉ b := fun hmem =>
  absurd (Finset.le_sup (f := id) (Finmap.mem_keys.mpr hmem)) (Nat.not_succ_le_self _)

end Blocks
end OsLab
