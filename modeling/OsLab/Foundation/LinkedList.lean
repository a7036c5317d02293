import Mathlib.Data.List.TakeWhile
import OsLab.Foundation.CountedList
import OsLab.Foundation.LinkedQueue

/-! Singly linked lists in memory, with a head pointer and a counter: the walk to a node, a new node
linked in before it, and the node unlinked, each at the head, between two nodes or at the end. -/

namespace OsLab.LinkedList

open LinkedQueue

universe u
variable {α : Type u}

/-- Goes on from `current`, which comes after `prev`, to the first node at which the walk stops. -/
def walk (stop : α → Bool) (h : Heap α) : (fuel : Nat) → (prev current : Option Addr) →
    Option (Option Addr × Option Addr)
  | 0, _, _ => none
  | _ + 1, prev, none => some (prev, none)
  | fuel + 1, prev, some c =>
    match h.lookup c with
    | none => none
    | some node =>
      if stop node.value then some (prev, some c) else walk stop h fuel (some c) node.next

/-- Links the node at `a` in between `prev` and `current`. -/
def linkNode (h : Heap α) (head : Option Addr) (a : Addr) (prev current : Option Addr) :
    Option (Heap α × Option Addr) :=
  (setNext h a current).bind fun h =>
    match prev with
    | none => some (h, some a)
    | some p => (setNext h p (some a)).map fun h => (h, head)

def insert (malloc : Heap α → Addr) (stop : α → Bool) (x : α) (h : Heap α) (head : Option Addr) :
    Option (Heap α × Option Addr) :=
  let a := malloc h
  let h := h.insert a ⟨x, none⟩
  match head with
  | none => some (h, some a)
  | some _ =>
    (walk stop h (h.keys.card + 1) none head).bind fun (prev, current) =>
      linkNode h head a prev current

/-- Unlinks the node at `a`, which comes after `prev`, and frees it. -/
def unlinkNode (h : Heap α) (head : Option Addr) (prev : Option Addr) (a : Addr) :
    Option (Heap α × Option Addr) :=
  (h.lookup a).bind fun node =>
    match prev with
    | none => some (h.erase a, node.next)
    | some p => (setNext h p node.next).map fun h => (h.erase a, head)

def unlink (stop : α → Bool) (h : Heap α) (head : Option Addr) :
    Option (Bool × Heap α × Option Addr) :=
  (walk stop h (h.keys.card + 1) none head).bind fun (prev, current) =>
    match current with
    | none => some (false, h, head)
    | some a => (unlinkNode h head prev a).map fun r => (true, r)

def find (stop : α → Bool) (h : Heap α) (head : Option Addr) : Option (Option α) :=
  (walk stop h (h.keys.card + 1) none head).bind fun (_, current) =>
    match current with
    | none => some none
    | some a => (h.lookup a).map fun node => some node.value

structure IsList (h : Heap α) (head : Option Addr) (cells : List (Addr × α)) : Prop where
  chain : Chain h head cells none
  nodup : (cells.map Prod.fst).Nodup

variable {h : Heap α} {head link : Option Addr} {pre post cells : List (Addr × α)} {a : Addr} {x : α}
  {stop : α → Bool}

theorem isList_nil (h : Heap α) : IsList h none [] := ⟨rfl, .nil⟩

theorem link_eq (hc : Chain h link cells none) : link = cells.head?.map Prod.fst := by
  cases cells with
  | nil => exact hc
  | cons c cells => exact hc.1

theorem IsList.head_eq_none (hl : IsList h head cells) : head = none ↔ cells = [] := by
  rw [link_eq hl.chain, Option.map_eq_none_iff, List.head?_eq_none_iff]

theorem walk_spec {fuel : Nat} (stop : α → Bool) (pre : List (Addr × α)) (hlink : Chain h link post none)
    (hfuel : post.length < fuel) :
    walk stop h fuel (pre.getLast?.map Prod.fst) link =
      some ((pre ++ post.takeWhile (!stop ·.2)).getLast?.map Prod.fst,
        (post.dropWhile (!stop ·.2)).head?.map Prod.fst) := by
  induction fuel generalizing pre post link with
  | zero => exact absurd hfuel (Nat.not_lt_zero _)
  | succ fuel ih =>
    cases post with
    | nil =>
      obtain rfl := hlink
      rw [walk, List.takeWhile_nil, List.append_nil]
      rfl
    | cons c post =>
      obtain ⟨rfl, next, hnode, hnext⟩ := hlink
      simp only [walk, hnode]
      rw [List.takeWhile_cons, List.dropWhile_cons]
      cases hstop : stop c.2 with
      | true =>
        rw [if_pos rfl, Bool.not_true, if_neg Bool.false_ne_true, if_neg Bool.false_ne_true,
          List.append_nil]
        rfl
      | false =>
        have hrest := ih (pre ++ [c]) hnext (Nat.lt_of_succ_lt_succ hfuel)
        rw [List.getLast?_concat, Option.map_some, List.append_assoc, List.singleton_append] at hrest
        rw [if_neg Bool.false_ne_true, Bool.not_false, if_pos rfl, if_pos rfl]
        exact hrest

theorem IsList.walk (hl : IsList h head cells) (stop : α → Bool) :
    walk stop h (h.keys.card + 1) none head =
      some ((cells.takeWhile (!stop ·.2)).getLast?.map Prod.fst,
        (cells.dropWhile (!stop ·.2)).head?.map Prod.fst) :=
  walk_spec stop [] hl.chain (Nat.lt_succ_of_le (hl.chain.length_le hl.nodup))

theorem linkNode_spec (hl : IsList h head (pre ++ post)) (hpre : Chain h head pre link)
    (hpost : Chain h link post none) (hnew : a ∉ (pre ++ post).map Prod.fst)
    (hnode : h.lookup a = some ⟨x, none⟩) : ∃ h' head',
      linkNode h head a (pre.getLast?.map Prod.fst) link = some (h', head') ∧
        IsList h' head' (pre ++ (a, x) :: post) := by
  have hnodup : ((pre ++ (a, x) :: post).map Prod.fst).Nodup :=
    (List.perm_middle.map Prod.fst).nodup_iff.mpr (List.nodup_cons.mpr ⟨hnew, hl.nodup⟩)
  have hne : ∀ c ∈ pre ++ post, c.1 ≠ a := fun c hc =>
    ne_of_mem_of_not_mem (List.mem_map_of_mem hc) hnew
  have hlinked : Chain (h.insert a ⟨x, link⟩) (some a) ((a, x) :: post) none :=
    ⟨rfl, link, Finmap.lookup_insert _, hpost.frame fun c hc =>
      Finmap.lookup_insert_of_ne _ (hne c (List.mem_append_right pre hc))⟩
  rw [linkNode, setNext_eq hnode, Option.bind_some]
  rcases List.eq_nil_or_concat' pre with rfl | ⟨init, ⟨p, y⟩, rfl⟩
  · exact ⟨_, _, rfl, hlinked, hnodup⟩
  · have hbefore : Chain (h.insert a ⟨x, link⟩) head (init ++ [(p, y)]) link :=
      hpre.frame fun c hc => Finmap.lookup_insert_of_ne _ (hne c (List.mem_append_left post hc))
    obtain ⟨_, _, hlast⟩ := chain_append.mp hbefore
    have hdisjoint : ∀ c ∈ (a, x) :: post, c.1 ≠ p := fun c hc heq => by
      rw [List.map_append, List.nodup_append] at hnodup
      exact hnodup.2.2 p (by simp) c.1 (List.mem_map_of_mem hc) heq.symm
    have hpnodup : ((init ++ [(p, y)]).map Prod.fst).Nodup :=
      hl.nodup.sublist ((List.sublist_append_left _ _).map _)
    rw [List.getLast?_concat, Option.map_some]
    refine ⟨(h.insert a ⟨x, link⟩).insert p ⟨y, some a⟩, head, ?_,
      chain_append.mpr ⟨some a, hbefore.relink hpnodup (some a), ?_⟩, hnodup⟩
    · simp only [setNext_eq (chain_singleton.mp hlast).2, Option.map_some]
    · exact hlinked.frame fun c hc => Finmap.lookup_insert_of_ne _ (hdisjoint c hc)

theorem insert_spec (hl : IsList h head cells) {malloc : Heap α → Addr} (hfresh : malloc h ∉ h)
    (stop : α → Bool) (x : α) : ∃ h' head' cells',
      insert malloc stop x h head = some (h', head') ∧ IsList h' head' cells' ∧
        cells'.map Prod.snd = insertBefore stop x (cells.map Prod.snd) := by
  have hnew : malloc h ∉ cells.map Prod.fst := fun hmem => hfresh (hl.chain.mem_heap hmem)
  have hnode : (h.insert (malloc h) ⟨x, none⟩).lookup (malloc h) = some ⟨x, none⟩ :=
    Finmap.lookup_insert _
  have hl' : IsList (h.insert (malloc h) ⟨x, none⟩) head cells :=
    ⟨hl.chain.frame fun c hc => Finmap.lookup_insert_of_ne _
      (ne_of_mem_of_not_mem (List.mem_map_of_mem hc) hnew), hl.nodup⟩
  cases cells with
  | nil =>
    obtain rfl := hl.head_eq_none.mpr rfl
    exact ⟨_, _, [(malloc h, x)], rfl, ⟨chain_singleton.mpr ⟨rfl, hnode⟩, List.nodup_singleton _⟩, rfl⟩
  | cons c cells =>
    have hsplit := List.takeWhile_append_dropWhile (p := fun d : Addr × α => !stop d.2)
      (l := c :: cells)
    have hwalk := hl'.walk stop
    rw [← hsplit] at hl' hnew
    obtain ⟨link, hpre, hpost⟩ := chain_append.mp hl'.chain
    obtain ⟨h', head', hlinked, hlist⟩ := linkNode_spec hl' hpre hpost hnew hnode
    refine ⟨h', head', _, ?_, hlist, ?_⟩
    · have hhead : head = some c.1 := hl.chain.1
      rw [link_eq hpost] at hlinked
      subst hhead
      simp only [insert, hwalk, Option.bind_some]
      exact hlinked
    · rw [insertBefore_eq_takeWhile, List.map_append, List.map_cons, List.takeWhile_map,
        List.dropWhile_map]
      rfl

theorem unlinkNode_spec (hl : IsList h head (pre ++ (a, x) :: post)) : ∃ h' head',
    unlinkNode h head (pre.getLast?.map Prod.fst) a = some (h', head') ∧
      IsList h' head' (pre ++ post) := by
  have hperm : (pre ++ (a, x) :: post).Perm ((a, x) :: (pre ++ post)) := List.perm_middle
  obtain ⟨hnew, hnodup⟩ := List.nodup_cons.mp ((hperm.map Prod.fst).nodup_iff.mp hl.nodup)
  obtain ⟨mid, hpre, _, next, hnode, hpost⟩ := chain_append.mp hl.chain
  have hframe : ∀ h' : Heap α, ∀ c ∈ pre ++ post, (h'.erase a).lookup c.1 = h'.lookup c.1 :=
    fun h' c hc => Finmap.lookup_erase_ne (ne_of_mem_of_not_mem (List.mem_map_of_mem hc) hnew)
  have hlookup : h.lookup a = some ⟨x, next⟩ := hnode
  rw [unlinkNode, hlookup, Option.bind_some]
  rcases List.eq_nil_or_concat' pre with rfl | ⟨init, ⟨p, y⟩, rfl⟩
  · exact ⟨_, _, rfl, hpost.frame (hframe h), hnodup⟩
  · obtain ⟨_, _, hlast⟩ := chain_append.mp hpre
    have hdisjoint : ∀ c ∈ post, c.1 ≠ p := fun c hc heq => by
      rw [List.map_append, List.nodup_append] at hnodup
      exact hnodup.2.2 p (by simp) c.1 (List.mem_map_of_mem hc) heq.symm
    have hbefore := hpre.relink (hnodup.sublist ((List.sublist_append_left _ _).map _)) next
    have hafter : Chain (h.insert p ⟨y, next⟩) next post none :=
      hpost.frame fun c hc => Finmap.lookup_insert_of_ne _ (hdisjoint c hc)
    rw [List.getLast?_concat, Option.map_some]
    refine ⟨(h.insert p ⟨y, next⟩).erase a, head, ?_,
      (chain_append.mpr ⟨next, hbefore, hafter⟩).frame (hframe _), hnodup⟩
    simp only [setNext_eq (chain_singleton.mp hlast).2, Option.map_some]

theorem unlink_spec (hl : IsList h head cells) (stop : α → Bool) : ∃ h' head' cells',
    unlink stop h head = some ((cells.map Prod.snd).any stop, h', head') ∧ IsList h' head' cells' ∧
      cells'.map Prod.snd = (cells.map Prod.snd).eraseP stop := by
  have hwalk := hl.walk stop
  cases hrest : cells.dropWhile (!stop ·.2) with
  | nil =>
    have hnone : ∀ y ∈ cells.map Prod.snd, ¬ stop y := fun y hy => by
      obtain ⟨d, hd, rfl⟩ := List.mem_map.mp hy
      simpa using List.dropWhile_eq_nil_iff.mp hrest d hd
    refine ⟨h, head, cells, ?_, hl, (List.eraseP_of_forall_not hnone).symm⟩
    rw [List.any_eq_false.mpr hnone, unlink, hwalk, hrest]
    rfl
  | cons c post =>
    obtain ⟨a, x⟩ := c
    have hsplit : cells = cells.takeWhile (!stop ·.2) ++ (a, x) :: post := by
      rw [← hrest, List.takeWhile_append_dropWhile]
    have hstop : stop x = true := by
      have hhead := List.head?_dropWhile_not (fun c : Addr × α => !stop c.2) cells
      rw [hrest] at hhead
      simpa using hhead
    have hpass : ∀ y ∈ (cells.takeWhile (!stop ·.2)).map Prod.snd, ¬ stop y := fun y hy => by
      obtain ⟨d, hd, rfl⟩ := List.mem_map.mp hy
      simpa using List.mem_takeWhile_imp hd
    obtain ⟨h', head', hunlink, hl'⟩ := unlinkNode_spec (hsplit ▸ hl)
    refine ⟨h', head', _, ?_, hl', ?_⟩
    · have hany : (cells.map Prod.snd).any stop = true :=
        List.any_eq_true.mpr ⟨x, by rw [hsplit]; simp, hstop⟩
      rw [hany, unlink, hwalk, hrest]
      simp only [Option.bind_some, List.head?_cons, Option.map_some, hunlink]
    · rw [hsplit, List.map_append, List.map_append, List.map_cons, List.eraseP_append_right _ hpass,
        List.eraseP_cons_of_pos hstop, ← hsplit]

theorem find_spec (hl : IsList h head cells) (stop : α → Bool) :
    find stop h head = some ((cells.map Prod.snd).find? stop) := by
  rw [find, hl.walk stop, Option.bind_some, List.find?_map, List.find?_eq_head?_dropWhile_not]
  change _ = some (Option.map Prod.snd (cells.dropWhile (!stop ·.2)).head?)
  cases hrest : cells.dropWhile (!stop ·.2) with
  | nil => rfl
  | cons c post =>
    have hmem : c ∈ cells :=
      (List.dropWhile_sublist (!stop ·.2)).subset (hrest ▸ List.mem_cons_self)
    obtain ⟨next, hnode⟩ := hl.chain.mem_node hmem
    simp only [List.head?_cons, Option.map_some, hnode]

/-- A `CountedList` with its nodes. -/
structure Memory (α : Type u) where
  heap : Heap α
  head : Option Addr
  size : Int

namespace Memory

def empty : Memory α := ⟨∅, none, 0⟩

def insert (malloc : Heap α → Addr) (stop : α → Bool) (s : Memory α) (x : α) : Option (Memory α) :=
  (LinkedList.insert malloc stop x s.heap s.head).map fun (heap, head) => ⟨heap, head, s.size + 1⟩

def free (s : Memory α) (a : Addr) : Memory α := { s with heap := s.heap.erase a }

def detachHead (s : Memory α) : Option (Option Addr × Memory α) :=
  match s.head with
  | none => some (none, s)
  | some a => (s.heap.lookup a).map fun node => (some a, ⟨s.heap, node.next, s.size - 1⟩)

def popHead (s : Memory α) : Option (Option α × Memory α) :=
  s.detachHead.bind fun (head, s) =>
    match head with
    | none => some (none, s)
    | some a => (s.heap.lookup a).map fun node => (some node.value, s.free a)

def find (stop : α → Bool) (s : Memory α) : Option (Option α) := LinkedList.find stop s.heap s.head

def removeFirst (stop : α → Bool) (s : Memory α) : Option (Memory α) :=
  (unlink stop s.heap s.head).map fun (found, heap, head) =>
    ⟨heap, head, if found then s.size - 1 else s.size⟩

structure Holds (s : Memory α) (l : CountedList α) : Prop where
  nodes : ∃ cells, IsList s.heap s.head cells ∧ cells.map Prod.snd = l.items
  size : s.size = l.size

variable {s : Memory α} {l l' : CountedList α}

theorem holds_empty : (empty : Memory α).Holds .empty := ⟨⟨[], isList_nil _, rfl⟩, rfl⟩

theorem Holds.insert (h : s.Holds l) {malloc : Heap α → Addr} (hfresh : ∀ heap, malloc heap ∉ heap)
    (stop : α → Bool) (x : α) : ∃ s', s.insert malloc stop x = some s' ∧
      s'.Holds (l.insert stop x) := by
  obtain ⟨cells, hlist, hcells⟩ := h.nodes
  obtain ⟨heap, head, cells', hinsert, hlist', hcells'⟩ := insert_spec hlist (hfresh s.heap) stop x
  refine ⟨⟨heap, head, s.size + 1⟩, ?_, ⟨cells', hlist', ?_⟩, ?_⟩
  · rw [Memory.insert, hinsert, Option.map_some]
  · rw [hcells', hcells, CountedList.items_insert]
  · show s.size + 1 = ((l.size + 1 : Nat) : Int)
    have hsize := h.size
    omega

theorem Holds.detachHead_none (h : s.Holds l) (hl : l.popFront = none) :
    s.detachHead = some (none, s) := by
  obtain ⟨cells, hlist, hcells⟩ := h.nodes
  rw [CountedList.popFront_eq_none, ← hcells, List.map_eq_nil_iff] at hl
  rw [detachHead, hlist.head_eq_none.mpr hl]

theorem Holds.detachHead (h : s.Holds l) (hl : l.popFront = some (x, l')) : ∃ a next s',
    s.detachHead = some (some a, s') ∧ s'.heap.lookup a = some ⟨x, next⟩ ∧ s'.Holds l' ∧
      (s'.free a).Holds l' := by
  obtain ⟨cells, hlist, hcells⟩ := h.nodes
  have hitems := CountedList.popFront_eq_some.mp hl
  rw [hitems] at hcells
  obtain ⟨⟨a, y⟩, cells, rfl, rfl, hrest⟩ := List.map_eq_cons_iff.mp hcells
  obtain ⟨hhead, next, hnode, hchain⟩ := hlist.chain
  obtain ⟨hnew, hnodup⟩ := List.nodup_cons.mp hlist.nodup
  have hsize : s.size - 1 = l'.size := by
    rw [h.size, l.size_eq, hitems, List.length_cons, l'.size_eq]
    omega
  refine ⟨a, next, ⟨s.heap, next, s.size - 1⟩, ?_, hnode, ⟨⟨cells, ⟨hchain, hnodup⟩, hrest⟩, hsize⟩,
    ⟨cells, ⟨hchain.frame fun c hc => ?_, hnodup⟩, hrest⟩, hsize⟩
  · simp only [Memory.detachHead, hhead, hnode, Option.map_some]
  · exact Finmap.lookup_erase_ne (ne_of_mem_of_not_mem (List.mem_map_of_mem hc) hnew)

theorem Holds.popHead_none (h : s.Holds l) (hl : l.popFront = none) : s.popHead = some (none, s) := by
  rw [popHead, h.detachHead_none hl, Option.bind_some]

theorem Holds.popHead (h : s.Holds l) (hl : l.popFront = some (x, l')) :
    ∃ s', s.popHead = some (some x, s') ∧ s'.Holds l' := by
  obtain ⟨a, next, s', hdetach, hnode, _, hfree⟩ := h.detachHead hl
  refine ⟨s'.free a, ?_, hfree⟩
  simp only [Memory.popHead, hdetach, Option.bind_some, hnode, Option.map_some]

theorem Holds.find (h : s.Holds l) (stop : α → Bool) :
    s.find stop = some (l.items.find? stop) := by
  obtain ⟨cells, hlist, hcells⟩ := h.nodes
  rw [Memory.find, find_spec hlist, hcells]

theorem Holds.removeFirst (h : s.Holds l) (stop : α → Bool) :
    ∃ s', s.removeFirst stop = some s' ∧ s'.Holds (l.removeFirst stop) := by
  obtain ⟨cells, hlist, hcells⟩ := h.nodes
  obtain ⟨heap, head, cells', hunlink, hlist', hcells'⟩ := unlink_spec hlist stop
  rw [hcells] at hunlink hcells'
  refine ⟨⟨heap, head, if l.items.any stop then s.size - 1 else s.size⟩, ?_,
    ⟨cells', hlist', hcells'⟩, ?_⟩
  · rw [Memory.removeFirst, hunlink, Option.map_some]
  · have hsize := h.size
    rw [(l.removeFirst stop).size_eq, CountedList.items_removeFirst, List.length_eraseP, hsize,
      l.size_eq]
    cases hany : l.items.any stop with
    | false => rfl
    | true =>
      have hpos : 0 < l.items.length := by
        obtain ⟨y, hy, _⟩ := List.any_eq_true.mp hany
        exact List.length_pos_of_mem hy
      simp only [if_true]
      omega

end Memory

end OsLab.LinkedList
