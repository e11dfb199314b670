import NetworkLab.Lib.Memory
import Mathlib.Data.List.Nodup
import Mathlib.Data.Finset.Card
import Mathlib.Data.Finset.Range
set_option autoImplicit false

/-! Doubly linked lists in memory, and what a program does to them when it sets one
pointer at a time. A list is given by its nodes in order, each an address and the data
there. -/

namespace NetworkLab

structure Node (α : Type*) where
  data : α
  prev : Ptr
  next : Ptr

abbrev Heap.setPrev {α : Type*} (h : Heap (Node α)) (p v : Ptr) : Option (Heap (Node α)) :=
  h.modify p fun n => { n with prev := v }

abbrev Heap.setNext {α : Type*} (h : Heap (Node α)) (p v : Ptr) : Option (Heap (Node α)) :=
  h.modify p fun n => { n with next := v }

namespace DoublyLinked
variable {α : Type*}

abbrev Nodes (α : Type*) := List (Nat × α)

/-- The pointer to the first node, or what stands behind an empty segment. -/
def first (l : Nodes α) (r : Ptr) : Ptr := l.head?.elim r fun x => some x.1

def last : Ptr → Nodes α → Ptr
  | q, [] => q
  | _, (a,_) :: l => last (some a) l

/-- The nodes are there and linked; in front of them is `q` and behind them `r`. -/
def Seg (h : Heap (Node α)) : Ptr → Nodes α → Ptr → Prop
  | _, [], _ => True
  | q, (a,x) :: l, r => h.cells a = some ⟨x,q,first l r⟩ ∧ Seg h (some a) l r

abbrev addresses (l : Nodes α) : List Nat := l.map Prod.fst

section Ends
variable {a : Nat} {x : α} {l : Nodes α} {q r : Ptr}

@[simp] theorem first_nil : first ([] : Nodes α) r = r := rfl

@[simp] theorem first_cons : first ((a,x) :: l) r = some a := rfl

@[simp] theorem last_nil : last q ([] : Nodes α) = q := rfl

@[simp] theorem last_cons : last q ((a,x) :: l) = last (some a) l := rfl

@[simp] theorem last_concat : last q (l ++ [(a,x)]) = some a := by
  induction l generalizing q with
  | nil => rfl
  | cons y l ih => exact ih

theorem first_append (l l' : Nodes α) : first (l ++ l') r = first l (first l' r) := by
  cases l <;> rfl

theorem exists_first (h : l ≠ []) : ∃ a ∈ addresses l, first l r = some a := by
  obtain ⟨⟨a,x⟩,l',rfl⟩ := List.exists_cons_of_ne_nil h
  exact ⟨a,by simp,rfl⟩

end Ends

section Segments
variable {h h' : Heap (Node α)} {a : Nat} {x : α} {l l' : Nodes α} {q q' r r' : Ptr}

@[simp] theorem seg_nil : Seg h q [] r := trivial

@[simp] theorem seg_cons :
    Seg h q ((a,x) :: l) r ↔ h.cells a = some ⟨x,q,first l r⟩ ∧ Seg h (some a) l r := Iff.rfl

theorem seg_append :
    Seg h q (l ++ l') r ↔ Seg h q l (first l' r) ∧ Seg h (last q l) l' r := by
  induction l generalizing q with
  | nil => simp
  | cons y l ih =>
    obtain ⟨a,x⟩ := y
    rw [List.cons_append,seg_cons,seg_cons,ih,first_append,last_cons,and_assoc]

theorem Seg.congr (hs : Seg h q l r) (hc : ∀ a ∈ addresses l, h'.cells a = h.cells a) :
    Seg h' q l r := by
  induction l generalizing q with
  | nil => trivial
  | cons y l ih =>
    obtain ⟨a,x⟩ := y
    obtain ⟨ha,hl⟩ := hs
    exact ⟨(hc a (by simp)).trans ha,ih hl fun b hb => hc b (List.mem_cons_of_mem _ hb)⟩

theorem Seg.set (hs : Seg h q l r) (ha : a ∉ addresses l) (n : Node α) :
    Seg (h.set a n) q l r :=
  hs.congr fun b hb => Function.update_of_ne (by rintro rfl; exact ha hb) _ _

theorem Seg.erase (hs : Seg h q l r) (ha : a ∉ addresses l) : Seg (h.erase a) q l r :=
  hs.congr fun b hb => Function.update_of_ne (by rintro rfl; exact ha hb) _ _

/-- Each node of a segment is there. -/
theorem Seg.mem (hs : Seg h q l r) {y : Nat × α} (hy : y ∈ l) :
    ∃ p n, h.cells y.1 = some ⟨y.2,p,n⟩ := by
  induction l generalizing q with
  | nil => cases hy
  | cons z l ih =>
    rcases List.mem_cons.mp hy with rfl | hy
    · exact ⟨_,_,hs.1⟩
    · exact ih hs.2 hy

/-- `p->prev = v` for the first node. -/
theorem Seg.setPrev (hs : Seg h q ((a,x) :: l) r) (ha : a ∉ addresses l) (v : Ptr) :
    ∃ n, h.setPrev (some a) v = some (h.set a n) ∧ Seg (h.set a n) v ((a,x) :: l) r :=
  ⟨_,Heap.modify_some hs.1 _,Function.update_self ..,hs.2.set ha _⟩

/-- `p->next = v` for the last node. -/
theorem Seg.setNext (hs : Seg h q (l ++ [(a,x)]) r) (ha : a ∉ addresses l) (v : Ptr) :
    ∃ n, h.setNext (some a) v = some (h.set a n) ∧ Seg (h.set a n) q (l ++ [(a,x)]) v := by
  obtain ⟨hl,hc,-⟩ := seg_append.mp hs
  exact ⟨_,Heap.modify_some hc _,
    seg_append.mpr ⟨hl.set ha _,Function.update_self ..,trivial⟩⟩

/-- A segment fits into the allocated part of the memory. -/
theorem Seg.length_le (hs : Seg h q l r) (hn : (addresses l).Nodup) : l.length ≤ h.bound := by
  have hsub : (addresses l).toFinset ⊆ Finset.range h.bound := by
    intro a ha
    obtain ⟨y,hy,rfl⟩ := List.mem_map.mp (List.mem_toFinset.mp ha)
    obtain ⟨p,n,hc⟩ := hs.mem hy
    exact Finset.mem_range.mpr (Heap.lt_bound hc)
  have hcard := Finset.card_le_card hsub
  rw [List.toFinset_card_of_nodup hn,Finset.card_range,List.length_map] at hcard
  exact hcard

end Segments

/-- `p` points to a list with these nodes. -/
structure IsList (h : Heap (Node α)) (p : Ptr) (l : Nodes α) : Prop where
  head : p = first l none
  seg : Seg h none l none
  nodup : (addresses l).Nodup

/-- Walk from `q` to the first node that passes the test; the second pointer is the node
before it. A test may fail, and so does a walk that takes more than `fuel` nodes. -/
def walk (h : Heap (Node α)) (test : α → Option Bool) : Nat → Ptr → Ptr → Option (Ptr × Ptr)
  | 0, _, _ => none
  | fuel+1, q, qold =>
    match q with
    | none => some (none,qold)
    | some a => (h.cells a).bind fun n => (test n.data).bind fun stop =>
      if stop then some (some a,qold) else walk h test fuel n.next (some a)

theorem walk_eq {h : Heap (Node α)} (test : α → Option Bool) (stop : α → Bool) {l : Nodes α}
    {q : Ptr} (qold : Ptr) {fuel : Nat} (hs : Seg h q l none)
    (htest : ∀ y ∈ l, test y.2 = some (stop y.2)) (hfuel : l.length < fuel) :
    walk h test fuel (first l none) qold =
      some (first (l.dropWhile fun y => !stop y.2) none,
        last qold (l.takeWhile fun y => !stop y.2)) := by
  induction l generalizing q qold fuel with
  | nil =>
    obtain ⟨fuel,rfl⟩ := Nat.exists_eq_succ_of_ne_zero (Nat.ne_of_gt hfuel)
    rfl
  | cons y l ih =>
    obtain ⟨a,x⟩ := y
    obtain ⟨fuel,rfl⟩ := Nat.exists_eq_succ_of_ne_zero (Nat.ne_zero_of_lt hfuel)
    have hx : test x = some (stop x) := htest (a,x) (by simp)
    simp only [first_cons,walk,hs.1,Option.bind_some,hx]
    cases hstop : stop x with
    | true => simp [hstop]
    | false =>
      rw [if_neg (by simp),ih _ hs.2 (fun y hy => htest y (List.mem_cons_of_mem _ hy))
        (Nat.lt_of_succ_lt_succ hfuel)]
      simp [hstop]

/-! Pointer programs. `p` is the node to link, `q` the node to take out. -/

/-- `p->next = NULL; p->prev = NULL;` -/
def linkOnly (h : Heap (Node α)) (p : Ptr) : Option (Heap (Node α)) := do
  let h ← h.setNext p none
  h.setPrev p none

/-- `qold->next = p; p->prev = qold; p->next = NULL;` -/
def linkLast (h : Heap (Node α)) (qold p : Ptr) : Option (Heap (Node α)) := do
  let h ← h.setNext qold p
  let h ← h.setPrev p qold
  h.setNext p none

/-- `p->next = head; p->prev = NULL; p->next->prev = p;` -/
def linkFront (h : Heap (Node α)) (head p : Ptr) : Option (Heap (Node α)) := do
  let h ← h.setNext p head
  let h ← h.setPrev p none
  let n ← h.load p
  h.setPrev n.next p

/-- `p->next = q; p->prev = q->prev; q->prev->next = p; q->prev = p;` -/
def linkBefore (h : Heap (Node α)) (q p : Ptr) : Option (Heap (Node α)) := do
  let h ← h.setNext p q
  let n ← h.load q
  let h ← h.setPrev p n.prev
  let n ← h.load q
  let h ← h.setNext n.prev p
  h.setPrev q p

/-- `head = head->next; if (head != NULL) head->prev = NULL;` -/
def dropFirst (h : Heap (Node α)) (head : Ptr) : Option (Heap (Node α) × Ptr) := do
  let n ← h.load head
  match n.next with
  | none => some (h,none)
  | some b => do
    let h ← h.setPrev (some b) none
    some (h,some b)

/-- The four cases of taking `q` out of the list at `head`; the node stays allocated. -/
def unlink (h : Heap (Node α)) (head q : Ptr) : Option (Heap (Node α) × Ptr) := do
  let n ← h.load q
  if n.next = none ∧ n.prev = none then some (h,none)
  else if n.next = none then do
    let h ← h.setNext n.prev none
    some (h,head)
  else if q = head then do
    let h ← h.setPrev n.next none
    some (h,n.next)
  else do
    let h ← h.setPrev n.next n.prev
    let n ← h.load q
    let h ← h.setNext n.prev n.next
    some (h,head)

/-- Nothing but the cells at these addresses has changed. -/
def Outside (s : List Nat) (h h' : Heap (Node α)) : Prop := ∀ a ∉ s, h'.cells a = h.cells a

section Outside
variable {h h' h'' : Heap (Node α)} {s : List Nat} {a : Nat}

theorem Outside.refl : Outside s h h := fun _ _ => rfl

theorem Outside.trans (h₁ : Outside s h h') (h₂ : Outside s h' h'') : Outside s h h'' :=
  fun a ha => (h₂ a ha).trans (h₁ a ha)

theorem Outside.set (ha : a ∈ s) (n : Node α) : Outside s h (h.set a n) :=
  fun _ hb => Function.update_of_ne (by rintro rfl; exact hb ha) _ _

end Outside

/-- The nodes around one node, and that none of them is met twice. -/
theorem split_nodup {a : Nat} {x : α} {l l' : Nodes α} (h : (addresses (l ++ (a,x) :: l')).Nodup) :
    (a ∉ addresses l ∧ a ∉ addresses l') ∧ (addresses (l ++ l')).Nodup := by
  simp only [addresses,List.map_append,List.map_cons] at h ⊢
  obtain ⟨h₁,h₂⟩ := List.nodup_middle.mp h |> List.nodup_cons.mp
  rw [List.mem_append,not_or] at h₁
  exact ⟨h₁,h₂⟩

section Specs
variable {h : Heap (Node α)} {a b : Nat} {x y : α} {n : Node α} {l l₁ l₂ : Nodes α} {p : Ptr}

theorem linkOnly_spec (hc : h.cells a = some n) :
    ∃ h', linkOnly h (some a) = some h' ∧ IsList h' (some a) [(a,n.data)] ∧
      Outside [a] h h' := by
  have h₁ := Heap.modify_some hc fun n => { n with next := none }
  have h₂ := Heap.modify_some (h := h.set a { n with next := none }) (Function.update_self ..)
    fun n => { n with prev := none }
  refine ⟨(h.set a { n with next := none }).set a ⟨n.data,none,none⟩,?_,
    ⟨rfl,⟨Function.update_self ..,trivial⟩,by simp⟩,
    (Outside.set (by simp) _).trans (Outside.set (by simp) _)⟩
  simp only [linkOnly,Heap.setNext,h₁,Option.bind_eq_bind,Option.bind_some,h₂]

theorem linkLast_spec (hl : IsList h p (l ++ [(b,y)])) (hc : h.cells a = some n)
    (ha : a ∉ addresses (l ++ [(b,y)])) :
    ∃ h', linkLast h (some b) (some a) = some h' ∧
      IsList h' p (l ++ [(b,y)] ++ [(a,n.data)]) ∧
      Outside (a :: addresses (l ++ [(b,y)])) h h' := by
  have hb : b ∉ addresses l := by
    have hn := hl.nodup
    simp only [addresses,List.map_append,List.map_cons,List.map_nil] at hn
    exact fun hb => (List.nodup_append.mp hn).2.2 b hb b (by simp) rfl
  have hab : a ≠ b := by
    rintro rfl
    simp at ha
  obtain ⟨m,h₁,hs₁⟩ := hl.seg.setNext hb (some a)
  have hc₁ : (h.set b m).cells a = some n := (Function.update_of_ne hab _ _).trans hc
  have h₂ := Heap.modify_some hc₁ fun n => { n with prev := some b }
  have h₃ := Heap.modify_some (h := (h.set b m).set a { n with prev := some b })
    (Function.update_self ..) fun n => { n with next := none }
  refine ⟨((h.set b m).set a { n with prev := some b }).set a ⟨n.data,some b,none⟩,
    ?_,⟨?_,?_,?_⟩,?_⟩
  · simp only [linkLast,h₁,Heap.setPrev,Heap.setNext,Option.bind_eq_bind,Option.bind_some,h₂,h₃]
  · rw [hl.head,first_append,first_append]
    cases l <;> rfl
  · refine seg_append.mpr ⟨(hs₁.set ha _).set ha _,?_,trivial⟩
    simp only [last_concat]
    exact Function.update_self ..
  · have hn := hl.nodup
    simp only [addresses,List.map_append,List.map_cons,List.map_nil] at hn ha ⊢
    exact List.nodup_append.mpr ⟨hn,by simp,fun c hc d hd => by
      rintro rfl
      exact ha (List.mem_singleton.mp hd ▸ hc)⟩
  · exact ((Outside.set (by simp) _).trans (Outside.set (by simp) _)).trans
      (Outside.set (by simp) _)

theorem linkFront_spec (hl : IsList h p ((b,y) :: l)) (hc : h.cells a = some n)
    (ha : a ∉ addresses ((b,y) :: l)) :
    ∃ h', linkFront h p (some a) = some h' ∧
      IsList h' (some a) ((a,n.data) :: (b,y) :: l) ∧
      Outside (a :: addresses ((b,y) :: l)) h h' := by
  have hp : p = some b := hl.head
  have hb : b ∉ addresses l := (List.nodup_cons.mp hl.nodup).1
  have hab : a ≠ b := by
    rintro rfl
    simp at ha
  have h₁ := Heap.modify_some hc fun n => { n with next := p }
  have h₂ := Heap.modify_some (h := h.set a { n with next := p }) (Function.update_self ..)
    fun n => { n with prev := none }
  obtain ⟨m,h₃,hs⟩ := ((hl.seg.set ha { n with next := p }).set ha
    ⟨n.data,none,p⟩).setPrev hb (some a)
  refine ⟨((h.set a { n with next := p }).set a ⟨n.data,none,p⟩).set b m,?_,
    ⟨rfl,⟨?_,hs⟩,List.nodup_cons.mpr ⟨ha,hl.nodup⟩⟩,?_⟩
  · simp only [linkFront,Heap.setNext,Heap.setPrev,h₁,Option.bind_eq_bind,Option.bind_some,h₂,
      Heap.load_some,Heap.set_cells,Function.update_self]
    rw [hp] at h₃ ⊢
    exact h₃
  · refine (Function.update_of_ne hab _ _).trans ?_
    rw [hp]
    exact Function.update_self ..
  · exact ((Outside.set (by simp) _).trans (Outside.set (by simp) _)).trans
      (Outside.set (by simp) _)

theorem linkBefore_spec {c : Nat} {z : α} (hl : IsList h p (l ++ [(c,z)] ++ (b,y) :: l₂))
    (hc : h.cells a = some n) (ha : a ∉ addresses (l ++ [(c,z)] ++ (b,y) :: l₂)) :
    ∃ h', linkBefore h (some b) (some a) = some h' ∧
      IsList h' p (l ++ [(c,z)] ++ (a,n.data) :: (b,y) :: l₂) ∧
      Outside (a :: addresses (l ++ [(c,z)] ++ (b,y) :: l₂)) h h' := by
  obtain ⟨⟨hb₁,hb₂⟩,-⟩ := split_nodup hl.nodup
  have hassoc : l ++ [(c,z)] ++ (b,y) :: l₂ = l ++ (c,z) :: ((b,y) :: l₂) := by simp
  obtain ⟨⟨hc₁,hc₂⟩,-⟩ := split_nodup (hassoc ▸ hl.nodup)
  have ha₁ : a ∉ addresses (l ++ [(c,z)]) := fun hm => ha (by simp at hm ⊢; tauto)
  have ha₂ : a ∉ addresses ((b,y) :: l₂) := fun hm => ha (by simp at hm ⊢; tauto)
  have hba : b ≠ a := by
    rintro rfl
    simp at ha₂
  obtain ⟨hs₁,hs₂⟩ := seg_append.mp hl.seg
  rw [last_concat] at hs₂
  -- the new node points to both neighbours, then the neighbours to the new node
  have e₁ := Heap.modify_some hc fun n => { n with next := some b }
  have e₂ := Heap.modify_some (h := h.set a { n with next := some b }) (Function.update_self ..)
    fun n => { n with prev := some c }
  generalize hh₁ : h.set a { n with next := some b } = h₁ at *
  have hb : h₁.cells b = some ⟨y,some c,first l₂ none⟩ := by
    rw [← hh₁]
    exact (Function.update_of_ne hba _ _).trans hs₂.1
  generalize hh₂ : h₁.set a ⟨n.data,some c,some b⟩ = h₂ at *
  have hb' : h₂.cells b = some ⟨y,some c,first l₂ none⟩ := by
    rw [← hh₂]
    exact (Function.update_of_ne hba _ _).trans hb
  have hseg : ∀ {q : Ptr} {k : Nodes α} {r : Ptr}, Seg h q k r → a ∉ addresses k →
      Seg h₂ q k r := by
    intro q k r hk hak
    rw [← hh₂,← hh₁]
    exact (hk.set hak _).set hak _
  obtain ⟨m,e₃,hs₃⟩ := (hseg hs₁ ha₁).setNext hc₁ (some a)
  obtain ⟨m',e₄,hs₄⟩ := ((hseg hs₂ ha₂).set hc₂ m).setPrev hb₂ (some a)
  have hac : a ≠ c := by
    rintro rfl
    simp at ha₁
  refine ⟨(h₂.set c m).set b m',?_,⟨?_,?_,?_⟩,?_⟩
  · simp only [linkBefore,Heap.setNext,Heap.setPrev,e₁,Option.bind_eq_bind,Option.bind_some,
      Heap.load_some,hb,e₂,hb']
    simp only [Heap.setNext,Heap.setPrev] at e₃ e₄
    rw [e₃,Option.bind_some,e₄]
  · rw [hl.head,first_append,first_append]
    cases l <;> rfl
  · refine seg_append.mpr ⟨hs₃.set hb₁ _,?_,hs₄⟩
    rw [last_concat]
    refine (Function.update_of_ne hba.symm _ _).trans ((Function.update_of_ne hac _ _).trans ?_)
    rw [← hh₂]
    exact Function.update_self ..
  · simp only [addresses,List.map_append,List.map_cons] at ha ⊢
    refine List.nodup_middle.mpr (List.nodup_cons.mpr ⟨ha,?_⟩)
    have := hl.nodup
    simpa only [addresses,List.map_append,List.map_cons] using this
  · rw [← hh₂,← hh₁]
    exact (((Outside.set (by simp) _).trans (Outside.set (by simp) _)).trans
      (Outside.set (by simp) _)).trans (Outside.set (by simp) _)

theorem dropFirst_spec (hl : IsList h p ((b,y) :: l)) :
    ∃ h' p', dropFirst h p = some (h',p') ∧ IsList h' p' l ∧ Outside (addresses l) h h' := by
  obtain ⟨hp,⟨hb,hs⟩,hn⟩ := hl
  obtain ⟨-,hn⟩ := List.nodup_cons.mp hn
  cases l with
  | nil =>
    refine ⟨h,none,?_,⟨rfl,trivial,hn⟩,Outside.refl⟩
    simp [dropFirst,hp,hb]
  | cons z l =>
    obtain ⟨c,z⟩ := z
    obtain ⟨m,e,hs'⟩ := hs.setPrev (List.nodup_cons.mp hn).1 none
    refine ⟨h.set c m,some c,?_,⟨rfl,hs',hn⟩,Outside.set (by simp) _⟩
    simp only [Heap.setPrev] at e
    simp [dropFirst,hp,hb,e]

/-- The node goes, and its neighbours are linked. -/
theorem unlink_spec (hl : IsList h p (l₁ ++ (b,y) :: l₂)) :
    ∃ h' p', unlink h p (some b) = some (h',p') ∧ IsList h' p' (l₁ ++ l₂) ∧
      Outside (addresses (l₁ ++ l₂)) h h' := by
  obtain ⟨hp,hs,hn⟩ := hl
  obtain ⟨⟨hb₁,hb₂⟩,hn'⟩ := split_nodup hn
  obtain ⟨hs₁,hb,hs₂⟩ := seg_append.mp hs
  rw [first_append] at hp
  rcases List.eq_nil_or_concat l₁ with rfl | ⟨k,⟨c,z⟩,rfl⟩
  · cases l₂ with
    | nil =>
      refine ⟨h,none,?_,⟨rfl,trivial,hn'⟩,Outside.refl⟩
      simp [unlink,hb]
    | cons w l₂ =>
      obtain ⟨d,w⟩ := w
      obtain ⟨m,e,hs'⟩ := hs₂.setPrev (List.nodup_cons.mp hn').1 none
      refine ⟨h.set d m,some d,?_,⟨rfl,hs',hn'⟩,Outside.set (by simp) _⟩
      simp only [Heap.setPrev] at e
      simp only [unlink,Heap.load_some,hb,Option.bind_eq_bind,Option.bind_some,first_cons,
        reduceCtorEq,false_and,if_false,e]
      exact if_pos hp.symm
  · rw [List.concat_eq_append] at *
    rw [last_concat] at hb
    have hc : c ∉ addresses k ∧ c ∉ addresses l₂ := by
      have hassoc : k ++ [(c,z)] ++ l₂ = k ++ (c,z) :: l₂ := by simp
      exact (split_nodup (hassoc ▸ hn')).1
    have hne : some b ≠ p := by
      obtain ⟨d,hd,he⟩ := exists_first (l := k ++ [(c,z)]) (r := some b) (by simp)
      rw [hp,first_cons,he]
      rintro ⟨rfl⟩
      exact hb₁ hd
    have hhead : ∀ r : Nodes α, p = first (k ++ [(c,z)] ++ r) none := by
      intro r
      rw [hp,first_append]
      cases k <;> rfl
    cases l₂ with
    | nil =>
      obtain ⟨m,e,hs'⟩ := hs₁.setNext hc.1 none
      refine ⟨h.set c m,p,?_,⟨hhead [],?_,hn'⟩,Outside.set (by simp) _⟩
      · simp only [Heap.setNext] at e
        simp [unlink,hb,e]
      · rw [List.append_nil]
        exact hs'
    | cons w l₂ =>
      obtain ⟨d,w⟩ := w
      have hd : d ∉ addresses (k ++ [(c,z)]) ∧ d ∉ addresses l₂ := (split_nodup hn').1
      obtain ⟨m,e,hs₂'⟩ := hs₂.setPrev hd.2 (some c)
      have hbd : b ≠ d := by
        rintro rfl
        simp at hb₂
      have hb' : (h.set d m).cells b = some ⟨y,some c,some d⟩ :=
        (Function.update_of_ne hbd _ _).trans hb
      obtain ⟨m',e',hs₁'⟩ := (hs₁.set hd.1 m).setNext hc.1 (some d)
      refine ⟨(h.set d m).set c m',p,?_,⟨hhead _,?_,hn'⟩,
        (Outside.set (by simp) _).trans (Outside.set (by simp) _)⟩
      · simp only [Heap.setNext,Heap.setPrev] at e e'
        simp only [unlink,Heap.load_some,hb,Option.bind_eq_bind,Option.bind_some,first_cons,
          reduceCtorEq,false_and,if_false,if_neg hne,e,hb',e']
      · refine seg_append.mpr ⟨hs₁',?_⟩
        rw [last_concat]
        exact hs₂'.set hc.2 _

end Specs

end DoublyLinked
end NetworkLab
