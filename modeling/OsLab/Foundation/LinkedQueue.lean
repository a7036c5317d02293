import Mathlib.Data.Finmap
import Mathlib.Order.Lattice.Nat

/-! Singly linked queues in memory, with a head and a tail pointer. An access to memory that is not
allocated is `none`. -/

namespace OsLab

abbrev Addr := Nat

/-- `next` is `none` where the pointer is NULL. -/
structure Node (α : Type*) where
  value : α
  next : Option Addr

abbrev Heap (α : Type*) := Finmap fun _ : Addr => Node α

structure LinkedQueue where
  head : Option Addr
  tail : Option Addr
deriving DecidableEq, Repr

namespace LinkedQueue

variable {α : Type*}

def empty : LinkedQueue := ⟨none, none⟩

def setNext (h : Heap α) (a : Addr) (next : Option Addr) : Option (Heap α) :=
  (h.lookup a).map fun node => h.insert a { node with next }

def pushBack (malloc : Heap α → Addr) (x : α) (h : Heap α) (q : LinkedQueue) :
    Option (Heap α × LinkedQueue) :=
  match q.tail with
  | none => some (h.insert (malloc h) ⟨x, none⟩, ⟨some (malloc h), some (malloc h)⟩)
  | some t =>
    (setNext (h.insert (malloc h) ⟨x, none⟩) t (some (malloc h))).map fun h' =>
      (h', { q with tail := some (malloc h) })

/-- Links the nodes of `r` in behind the tail of `q`. -/
def splice (h : Heap α) (q r : LinkedQueue) : Option (Heap α × LinkedQueue) :=
  match q.tail with
  | none => some (h, r)
  | some t => (setNext h t r.head).map fun h => (h, ⟨q.head, r.tail⟩)

/-- Unlinks the head, which is at `a`, and frees it. -/
def popHead (h : Heap α) (a : Addr) (q : LinkedQueue) : Option (α × Heap α × LinkedQueue) :=
  (h.lookup a).map fun node =>
    (node.value, h.erase a, ⟨node.next, if node.next = none then none else q.tail⟩)

/-- Unlinks the node at `current`, which comes after `prev`, and frees it. -/
def unlinkNode (h : Heap α) (q : LinkedQueue) (prev : Option Addr) (current : Addr)
    (next : Option Addr) : Option (Heap α × LinkedQueue) :=
  let tail := if q.tail = some current then prev else q.tail
  match prev with
  | none => some (h.erase current, ⟨next, tail⟩)
  | some p => (setNext h p next).map fun h => (h.erase current, ⟨q.head, tail⟩)

/-- Looks for the value from `current` on and unlinks its node; says whether there was one. -/
def unlinkFrom [DecidableEq α] (x : α) (h : Heap α) (q : LinkedQueue) : (fuel : Nat) →
    (prev current : Option Addr) → Option (Bool × Heap α × LinkedQueue)
  | 0, _, _ => none
  | _ + 1, _, none => some (false, h, q)
  | fuel + 1, prev, some c =>
    match h.lookup c with
    | none => none
    | some node =>
      if node.value = x then (unlinkNode h q prev c node.next).map fun r => (true, r)
      else unlinkFrom x h q fuel (some c) node.next

def unlink [DecidableEq α] (x : α) (h : Heap α) (q : LinkedQueue) :
    Option (Bool × Heap α × LinkedQueue) := unlinkFrom x h q (h.keys.card + 1) none q.head

/-- Writes the values from `current` on to the end of an array with room for `capacity` of them. -/
def collectFrom (capacity : Nat) (h : Heap α) : (fuel : Nat) → (current : Option Addr) →
    List α → Option (List α)
  | 0, _, _ => none
  | _ + 1, none, all => some all
  | fuel + 1, some c, all =>
    match h.lookup c with
    | none => none
    | some node =>
      if all.length < capacity then collectFrom capacity h fuel node.next (all ++ [node.value])
      else none

/-- Frees the nodes from `current` on. -/
def freeFrom : (fuel : Nat) → (current : Option Addr) → Heap α → Option (Heap α)
  | 0, _, _ => none
  | _ + 1, none, h => some h
  | fuel + 1, some c, h =>
    match h.lookup c with
    | none => none
    | some node => freeFrom fuel node.next (h.erase c)

def nextAddr (h : Heap α) : Addr := h.keys.sup id + 1

theorem nextAddr_notMem (h : Heap α) : nextAddr h ∉ h := fun hmem =>
  Nat.lt_irrefl _ (Finset.le_sup (f := id) (Finmap.mem_keys.mpr hmem))

def Chain (h : Heap α) : Option Addr → List (Addr × α) → Option Addr → Prop
  | link, [], stop => link = stop
  | link, c :: cells, stop => link = some c.1 ∧ ∃ next, h.lookup c.1 = some ⟨c.2, next⟩ ∧
      Chain h next cells stop

structure IsQueue (h : Heap α) (q : LinkedQueue) (cells : List (Addr × α)) : Prop where
  chain : Chain h q.head cells none
  tail : q.tail = cells.getLast?.map Prod.fst
  nodup : (cells.map Prod.fst).Nodup

section Chains

variable {h h' : Heap α} {q : LinkedQueue} {link mid stop : Option Addr} {cells cells' : List (Addr × α)}
  {a : Addr} {x : α}

theorem chain_append : Chain h link (cells ++ cells') stop ↔
    ∃ mid, Chain h link cells mid ∧ Chain h mid cells' stop := by
  induction cells generalizing link with
  | nil =>
    constructor
    · exact fun hc => ⟨link, rfl, hc⟩
    · rintro ⟨mid, rfl, hc⟩
      exact hc
  | cons c cells ih =>
    simp only [List.cons_append, Chain, ih]
    constructor
    · rintro ⟨hlink, next, hnode, mid, hc, hc'⟩
      exact ⟨mid, ⟨hlink, next, hnode, hc⟩, hc'⟩
    · rintro ⟨mid, ⟨hlink, next, hnode, hc⟩, hc'⟩
      exact ⟨hlink, next, hnode, mid, hc, hc'⟩

theorem chain_singleton : Chain h link [(a, x)] stop ↔
    link = some a ∧ h.lookup a = some ⟨x, stop⟩ := by
  simp only [Chain]
  constructor
  · rintro ⟨hlink, next, hnode, rfl⟩
    exact ⟨hlink, hnode⟩
  · exact fun ⟨hlink, hnode⟩ => ⟨hlink, stop, hnode, rfl⟩

theorem Chain.mem_node (hc : Chain h link cells stop) {c : Addr × α} (hmem : c ∈ cells) :
    ∃ next, h.lookup c.1 = some ⟨c.2, next⟩ := by
  induction cells generalizing link with
  | nil => exact absurd hmem List.not_mem_nil
  | cons d cells ih =>
    obtain ⟨_, next, hnode, hrest⟩ := hc
    rcases List.mem_cons.mp hmem with rfl | hmem
    · exact ⟨next, hnode⟩
    · exact ih hrest hmem

theorem Chain.mem_heap (hc : Chain h link cells stop) (ha : a ∈ cells.map Prod.fst) : a ∈ h := by
  obtain ⟨c, hmem, rfl⟩ := List.mem_map.mp ha
  obtain ⟨_, hnode⟩ := hc.mem_node hmem
  exact Finmap.mem_of_lookup_eq_some hnode

theorem Chain.frame (hc : Chain h link cells stop)
    (hsame : ∀ c ∈ cells, h'.lookup c.1 = h.lookup c.1) : Chain h' link cells stop := by
  induction cells generalizing link with
  | nil => exact hc
  | cons c cells ih =>
    obtain ⟨hlink, next, hnode, hrest⟩ := hc
    exact ⟨hlink, next, (hsame c List.mem_cons_self).trans hnode,
      ih hrest fun d hd => hsame d (List.mem_cons_of_mem c hd)⟩

theorem Chain.length_le (hc : Chain h link cells stop) (hnodup : (cells.map Prod.fst).Nodup) :
    cells.length ≤ h.keys.card := by
  rw [← List.length_map Prod.fst, ← List.toFinset_card_of_nodup hnodup]
  refine Finset.card_le_card fun a ha => ?_
  exact Finmap.mem_keys.mpr (hc.mem_heap (List.mem_toFinset.mp ha))

theorem IsQueue.frame (hq : IsQueue h q cells)
    (hsame : ∀ c ∈ cells, h'.lookup c.1 = h.lookup c.1) : IsQueue h' q cells :=
  ⟨hq.chain.frame hsame, hq.tail, hq.nodup⟩

theorem isQueue_empty (h : Heap α) : IsQueue h empty [] := ⟨rfl, rfl, .nil⟩

theorem IsQueue.head_eq_none (hq : IsQueue h q cells) : q.head = none ↔ cells = [] := by
  have hchain := hq.chain
  cases cells with
  | nil => exact iff_of_true hchain rfl
  | cons c cells =>
    refine iff_of_false (fun hnone => ?_) (List.cons_ne_nil c cells)
    exact Option.some_ne_none _ (hchain.1.symm.trans hnone)

theorem IsQueue.tail_eq_none (hq : IsQueue h q cells) : q.tail = none ↔ q.head = none := by
  rw [hq.head_eq_none, hq.tail, Option.map_eq_none_iff, List.getLast?_eq_none_iff]

end Chains

section Operations

variable {h : Heap α} {q : LinkedQueue} {link next : Option Addr} {pre post cells : List (Addr × α)}
  {a b : Addr} {x : α}

def SameOff (cells : List (Addr × α)) (h h' : Heap α) : Prop :=
  ∀ b ∉ cells.map Prod.fst, h'.lookup b = h.lookup b

theorem setNext_eq (hnode : h.lookup a = some ⟨x, link⟩) :
    setNext h a next = some (h.insert a ⟨x, next⟩) := by
  rw [setNext, hnode, Option.map_some]

theorem Chain.relink (hc : Chain h link (pre ++ [(a, x)]) next)
    (hnodup : ((pre ++ [(a, x)]).map Prod.fst).Nodup) (next' : Option Addr) :
    Chain (h.insert a ⟨x, next'⟩) link (pre ++ [(a, x)]) next' := by
  obtain ⟨mid, hpre, hlast⟩ := chain_append.mp hc
  rw [List.map_append, List.nodup_append] at hnodup
  refine chain_append.mpr ⟨mid, hpre.frame fun c hmem => ?_, chain_singleton.mpr ⟨?_, ?_⟩⟩
  · refine Finmap.lookup_insert_of_ne _ ?_
    exact hnodup.2.2 _ (List.mem_map_of_mem hmem) _ List.mem_cons_self
  · exact (chain_singleton.mp hlast).1
  · exact Finmap.lookup_insert _

theorem pushBack_empty (malloc : Heap α → Addr) (x : α) (h : Heap α) (htail : q.tail = none) :
    pushBack malloc x h q =
      some (h.insert (malloc h) ⟨x, none⟩, ⟨some (malloc h), some (malloc h)⟩) := by
  rw [pushBack, htail]

theorem pushBack_behind {t : Addr} {y : α} (malloc : Heap α → Addr) (x : α)
    (htail : q.tail = some t)
    (hnode : (h.insert (malloc h) ⟨x, none⟩).lookup t = some ⟨y, link⟩) :
    pushBack malloc x h q = some ((h.insert (malloc h) ⟨x, none⟩).insert t ⟨y, some (malloc h)⟩,
      ⟨q.head, some (malloc h)⟩) := by
  rw [pushBack, htail]
  simp only [setNext_eq hnode, Option.map_some]

theorem pushBack_spec (hq : IsQueue h q cells) {malloc : Heap α → Addr}
    (hfresh : malloc h ∉ h) (x : α) :
    ∃ h' q', pushBack malloc x h q = some (h', q') ∧
      IsQueue h' q' (cells ++ [(malloc h, x)]) ∧
      SameOff (cells ++ [(malloc h, x)]) h h' := by
  have hnew : malloc h ∉ cells.map Prod.fst := fun hmem => hfresh (hq.chain.mem_heap hmem)
  have hnodup : ((cells ++ [(malloc h, x)]).map Prod.fst).Nodup := by
    rw [List.map_append, List.nodup_append]
    refine ⟨hq.nodup, List.nodup_singleton _, fun a ha b hb => ?_⟩
    rw [List.mem_singleton.mp hb]
    exact ne_of_mem_of_not_mem ha hnew
  have hsame : ∀ b, b ≠ malloc h → (h.insert (malloc h) ⟨x, none⟩).lookup b = h.lookup b :=
    fun b hb => Finmap.lookup_insert_of_ne _ hb
  have hchain := hq.chain.frame fun c hc =>
    hsame c.1 (ne_of_mem_of_not_mem (List.mem_map_of_mem hc) hnew)
  have hnode : (h.insert (malloc h) ⟨x, none⟩).lookup (malloc h) = some ⟨x, none⟩ :=
    Finmap.lookup_insert _
  rcases List.eq_nil_or_concat' cells with rfl | ⟨init, ⟨t, y⟩, rfl⟩
  · refine ⟨_, _, pushBack_empty malloc x h hq.tail, ⟨chain_singleton.mpr ⟨rfl, hnode⟩, rfl, hnodup⟩,
      fun b hb => hsame b ?_⟩
    exact fun heq => hb (heq ▸ List.mem_cons_self)
  · have htail : q.tail = some t := by rw [hq.tail, List.getLast?_concat, Option.map_some]
    obtain ⟨mid, _, hlast⟩ := chain_append.mp hchain
    have hne : malloc h ≠ t := fun heq => hnew (by simp [heq])
    refine ⟨_, _, pushBack_behind malloc x htail (chain_singleton.mp hlast).2,
      ⟨chain_append.mpr ⟨_, hchain.relink hq.nodup (some (malloc h)), ?_⟩, by simp, hnodup⟩,
      fun b hb => ?_⟩
    · exact chain_singleton.mpr ⟨rfl, (Finmap.lookup_insert_of_ne _ hne).trans hnode⟩
    simp only [List.map_append, List.map_cons, List.map_nil, List.mem_append, not_or,
      List.mem_singleton] at hb
    rw [Finmap.lookup_insert_of_ne _ hb.1.2, hsame b hb.2]

def Apart (cells cells' : List (Addr × α)) : Prop :=
  (cells.map Prod.fst).Disjoint (cells'.map Prod.fst)

theorem Apart.symm {cells' : List (Addr × α)} (h : Apart cells cells') : Apart cells' cells :=
  List.disjoint_symm h

theorem apart_nil (cells : List (Addr × α)) : Apart cells [] := List.disjoint_nil_right _

theorem apart_append {cells' : List (Addr × α)} :
    Apart cells (pre ++ cells') ↔ Apart cells pre ∧ Apart cells cells' := by
  rw [Apart, List.map_append]
  exact List.disjoint_append_right

theorem IsQueue.apart_fresh (hq : IsQueue h q cells) (ha : a ∉ h) (x : α) :
    Apart cells [(a, x)] :=
  List.disjoint_singleton.mpr fun hmem => ha (hq.chain.mem_heap hmem)

theorem IsQueue.frame_off {h' : Heap α} {cells' : List (Addr × α)} (hq : IsQueue h q cells)
    (hsame : SameOff cells' h h') (hapart : Apart cells cells') : IsQueue h' q cells :=
  hq.frame fun _ hc => hsame _ fun hmem => hapart (List.mem_map_of_mem hc) hmem

theorem splice_spec {r : LinkedQueue} {cells' : List (Addr × α)} (hq : IsQueue h q cells)
    (hr : IsQueue h r cells') (hne : cells' ≠ []) (hapart : Apart cells cells') :
    ∃ h' q', splice h q r = some (h', q') ∧ IsQueue h' q' (cells ++ cells') ∧
      SameOff cells h h' := by
  rcases List.eq_nil_or_concat' cells with rfl | ⟨init, ⟨t, y⟩, rfl⟩
  · have htail : q.tail = none := hq.tail
    exact ⟨h, r, by rw [splice, htail], hr, fun _ _ => rfl⟩
  · have htail : q.tail = some t := by rw [hq.tail, List.getLast?_concat, Option.map_some]
    obtain ⟨_, _, hlast⟩ := chain_append.mp hq.chain
    have hnodup : ((init ++ [(t, y)] ++ cells').map Prod.fst).Nodup := by
      rw [List.map_append]
      exact hq.nodup.append hr.nodup hapart
    have hdisjoint : ∀ c ∈ cells', c.1 ≠ t := by
      rintro c hc rfl
      exact hapart (by simp) (List.mem_map_of_mem hc)
    have hafter : Chain (h.insert t ⟨y, r.head⟩) r.head cells' none :=
      hr.chain.frame fun c hc => Finmap.lookup_insert_of_ne _ (hdisjoint c hc)
    refine ⟨h.insert t ⟨y, r.head⟩, ⟨q.head, r.tail⟩, ?_,
      ⟨chain_append.mpr ⟨r.head, hq.chain.relink hq.nodup r.head, hafter⟩, ?_, hnodup⟩,
      fun b hb => Finmap.lookup_insert_of_ne _ fun heq => hb (by simp [heq])⟩
    · rw [splice, htail]
      simp only [setNext_eq (chain_singleton.mp hlast).2, Option.map_some]
    · rw [List.getLast?_append_of_ne_nil _ hne]
      exact hr.tail

theorem popHead_spec (hq : IsQueue h q ((a, x) :: cells)) :
    ∃ h' q', popHead h a q = some (x, h', q') ∧ IsQueue h' q' cells ∧
      SameOff ((a, x) :: cells) h h' := by
  obtain ⟨_, next, hnode, hrest⟩ := hq.chain
  obtain ⟨hnew, hnodup⟩ := List.nodup_cons.mp hq.nodup
  have hframe : ∀ c ∈ cells, (h.erase a).lookup c.1 = h.lookup c.1 := fun c hc =>
    Finmap.lookup_erase_ne (ne_of_mem_of_not_mem (List.mem_map_of_mem hc) hnew)
  refine ⟨_, _, by rw [popHead, hnode, Option.map_some], ⟨hrest.frame hframe, ?_, hnodup⟩,
    fun b hb => Finmap.lookup_erase_ne (List.ne_of_not_mem_cons hb)⟩
  cases cells with
  | nil => rw [show next = none from hrest, if_pos rfl]; rfl
  | cons c cells =>
    rw [hrest.1, if_neg (Option.some_ne_none _), hq.tail, List.getLast?_cons_cons]

theorem unlinkNode_spec (hq : IsQueue h q (pre ++ (a, x) :: post))
    (hnext : Chain h next post none) :
    ∃ h' q', unlinkNode h q (pre.getLast?.map Prod.fst) a next = some (h', q') ∧
      IsQueue h' q' (pre ++ post) ∧ SameOff (pre ++ (a, x) :: post) h h' := by
  have hperm : (pre ++ (a, x) :: post).Perm ((a, x) :: (pre ++ post)) := List.perm_middle
  obtain ⟨hnew, hnodup⟩ := List.nodup_cons.mp ((hperm.map Prod.fst).nodup_iff.mp hq.nodup)
  obtain ⟨mid, hpre, hrest⟩ := chain_append.mp hq.chain
  have hframe : ∀ h' : Heap α, ∀ c ∈ pre ++ post, (h'.erase a).lookup c.1 = h'.lookup c.1 :=
    fun h' c hc => Finmap.lookup_erase_ne (ne_of_mem_of_not_mem (List.mem_map_of_mem hc) hnew)
  have htail : (if q.tail = some a then pre.getLast?.map Prod.fst else q.tail) =
      (pre ++ post).getLast?.map Prod.fst := by
    rw [hq.tail, List.getLast?_append, List.getLast?_append]
    rcases List.eq_nil_or_concat' post with rfl | ⟨init, c, rfl⟩
    · exact if_pos rfl
    · have hne : c.1 ≠ a := fun heq => hnew (by simp [← heq])
      rw [List.getLast?_cons, List.getLast?_concat]
      simp [hne]
  rcases List.eq_nil_or_concat' pre with rfl | ⟨init, ⟨p, y⟩, rfl⟩
  · refine ⟨_, _, rfl, ⟨hnext.frame (hframe h), htail, hnodup⟩, fun b hb => ?_⟩
    exact Finmap.lookup_erase_ne (List.ne_of_not_mem_cons hb)
  · obtain ⟨_, _, hp⟩ := chain_append.mp hpre
    have hpnode := (chain_singleton.mp hp).2
    have hdisjoint : ∀ c ∈ post, c.1 ≠ p := fun c hc heq => by
      rw [List.map_append, List.nodup_append] at hnodup
      exact hnodup.2.2 p (by simp) c.1 (List.mem_map_of_mem hc) heq.symm
    have hbefore := hpre.relink (hnodup.sublist ((List.sublist_append_left _ _).map _)) next
    have hafter : Chain (h.insert p ⟨y, next⟩) next post none :=
      hnext.frame fun c hc => Finmap.lookup_insert_of_ne _ (hdisjoint c hc)
    rw [List.getLast?_concat, Option.map_some] at htail ⊢
    refine ⟨(h.insert p ⟨y, next⟩).erase a, ⟨q.head, if q.tail = some a then some p else q.tail⟩,
      ?_, ⟨(chain_append.mpr ⟨next, hbefore, hafter⟩).frame (hframe _), htail, hnodup⟩,
      fun b hb => ?_⟩
    · rw [unlinkNode, setNext_eq hpnode, Option.map_some]
    · have hba : b ≠ a := fun heq => hb (by simp [heq])
      have hbp : b ≠ p := fun heq => hb (by simp [heq])
      rw [Finmap.lookup_erase_ne hba, Finmap.lookup_insert_of_ne _ hbp]

theorem unlinkFrom_spec [DecidableEq α] {fuel : Nat} (hq : IsQueue h q (pre ++ post))
    (hlink : Chain h link post none) (hfuel : post.length < fuel) (hx : x ∉ pre.map Prod.snd) :
    ∃ h' q' cells, unlinkFrom x h q fuel (pre.getLast?.map Prod.fst) link =
        some (decide (x ∈ post.map Prod.snd), h', q') ∧ IsQueue h' q' cells ∧
      cells.map Prod.snd = ((pre ++ post).map Prod.snd).erase x ∧ cells.Sublist (pre ++ post) ∧
      SameOff (pre ++ post) h h' := by
  induction fuel generalizing pre post link with
  | zero => exact absurd hfuel (Nat.not_lt_zero _)
  | succ fuel ih =>
    cases post with
    | nil =>
      obtain rfl := hlink
      rw [List.append_nil] at hq ⊢
      refine ⟨h, q, pre, by simp [unlinkFrom], hq, ?_, .refl pre, fun _ _ => rfl⟩
      rw [List.erase_of_not_mem hx]
    | cons c post =>
      obtain ⟨c, y⟩ := c
      obtain ⟨rfl, next, hnode, hnext⟩ := hlink
      by_cases hy : y = x
      · subst hy
        obtain ⟨h', q', hunlink, hq', hsame⟩ := unlinkNode_spec hq hnext
        refine ⟨h', q', pre ++ post, ?_, hq', ?_, (List.sublist_cons_self _ post).append_left pre,
          hsame⟩
        · simp only [unlinkFrom, hnode, if_true, hunlink, Option.map_some]
          simp
        · rw [List.map_append, List.map_append, List.map_cons, List.erase_append_right _ hx,
            List.erase_cons_head]
      · rw [List.append_cons] at hq ⊢
        have hx' : x ∉ (pre ++ [(c, y)]).map Prod.snd := by
          simpa [Ne.symm hy] using hx
        obtain ⟨h', q', cells, hunlink, hrest⟩ := ih hq hnext (Nat.lt_of_succ_lt_succ hfuel) hx'
        refine ⟨h', q', cells, ?_, hrest⟩
        rw [List.getLast?_concat, Option.map_some] at hunlink
        simp only [unlinkFrom, hnode, if_neg hy, hunlink]
        simp [Ne.symm hy]

theorem unlink_spec [DecidableEq α] (hq : IsQueue h q cells) (x : α) :
    ∃ h' q' cells', unlink x h q = some (decide (x ∈ cells.map Prod.snd), h', q') ∧
      IsQueue h' q' cells' ∧ cells'.map Prod.snd = (cells.map Prod.snd).erase x ∧
      cells'.Sublist cells ∧ SameOff cells h h' :=
  unlinkFrom_spec (show IsQueue h q ([] ++ cells) from hq) hq.chain
    (Nat.lt_succ_of_le (hq.chain.length_le hq.nodup)) List.not_mem_nil

theorem collectFrom_spec {capacity fuel : Nat} (all : List α) (hlink : Chain h link cells none)
    (hfuel : cells.length < fuel) (hroom : all.length + cells.length ≤ capacity) :
    collectFrom capacity h fuel link all = some (all ++ cells.map Prod.snd) := by
  induction fuel generalizing cells link all with
  | zero => exact absurd hfuel (Nat.not_lt_zero _)
  | succ fuel ih =>
    cases cells with
    | nil =>
      obtain rfl := hlink
      simp [collectFrom]
    | cons c cells =>
      obtain ⟨rfl, next, hnode, hnext⟩ := hlink
      rw [List.length_cons] at hfuel hroom
      have hlt : all.length < capacity := by omega
      have hroom' : (all ++ [c.2]).length + cells.length ≤ capacity := by
        rw [List.length_append, List.length_singleton]
        omega
      have hcollect := ih (all ++ [c.2]) hnext (Nat.lt_of_succ_lt_succ hfuel) hroom'
      simp only [collectFrom, hnode, if_pos hlt, hcollect]
      rw [List.append_assoc, List.map_cons, List.singleton_append]

theorem freeFrom_spec {fuel : Nat} (hlink : Chain h link cells none)
    (hnodup : (cells.map Prod.fst).Nodup) (hfuel : cells.length < fuel) :
    ∃ h', freeFrom fuel link h = some h' ∧ SameOff cells h h' := by
  induction fuel generalizing cells link h with
  | zero => exact absurd hfuel (Nat.not_lt_zero _)
  | succ fuel ih =>
    cases cells with
    | nil =>
      obtain rfl := hlink
      exact ⟨h, rfl, fun _ _ => rfl⟩
    | cons c cells =>
      obtain ⟨rfl, next, hnode, hnext⟩ := hlink
      obtain ⟨hnew, hnodup⟩ := List.nodup_cons.mp hnodup
      have hframe : ∀ d ∈ cells, (h.erase c.1).lookup d.1 = h.lookup d.1 := fun d hd =>
        Finmap.lookup_erase_ne (ne_of_mem_of_not_mem (List.mem_map_of_mem hd) hnew)
      obtain ⟨h', hfree, hsame⟩ :=
        ih (hnext.frame hframe) hnodup (Nat.lt_of_succ_lt_succ hfuel)
      refine ⟨h', by simp only [freeFrom, hnode, hfree], fun b hb => ?_⟩
      obtain ⟨hbc, hbcells⟩ := List.ne_and_not_mem_of_not_mem_cons hb
      rw [hsame b hbcells, Finmap.lookup_erase_ne hbc]

end Operations

end LinkedQueue

end OsLab
