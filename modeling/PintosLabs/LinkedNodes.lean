/-
Singly linked lists of heap nodes, as C programs build them: a node is an
address with its data and the pointer to the next node.  The loops that follow
such a list with a second, trailing pointer, and the sort that exchanges the
data of two nodes, are stated here once.
-/
import Mathlib.Algebra.Ring.Int.Defs
import Mathlib.Algebra.Ring.Nat
import Mathlib.Data.List.Nodup
import Mathlib.Data.List.Perm.Subperm
import Mathlib.Logic.Function.Basic
import Mathlib.Tactic.Common

namespace PintosLabs

universe u

variable {α : Type u}

/-- The nodes handed out so far are the addresses below `size`. -/
structure NodeHeap (α : Type u) where
  data : Nat → α
  next : Nat → Option Nat
  size : Nat

namespace NodeHeap

def empty [Inhabited α] : NodeHeap α where
  data := fun _ => default
  next := fun _ => none
  size := 0

/-- A new node, at the address `h.size`, that points nowhere. -/
def alloc (h : NodeHeap α) (x : α) : NodeHeap α where
  data := Function.update h.data h.size x
  next := Function.update h.next h.size none
  size := h.size + 1

def setNext (h : NodeHeap α) (a : Nat) (p : Option Nat) : NodeHeap α :=
  { h with next := Function.update h.next a p }

/-- `if (tmp == head) head = q; else pre->next = q;` -/
def relink (h : NodeHeap α) (head pre tmp q : Option Nat) :
    Option (NodeHeap α × Option Nat) :=
  if tmp = head then some (h, q)
  else pre.map fun a => (h.setNext a q, head)

def setData (h : NodeHeap α) (a : Nat) (x : α) : NodeHeap α :=
  { h with data := Function.update h.data a x }

/-- Exchange the data of two nodes. -/
def swap (h : NodeHeap α) (a b : Nat) : NodeHeap α :=
  (h.setData a (h.data b)).setData b (h.data a)

/-- `if (tmp != head) pre = pre->next;` -/
def trail (h : NodeHeap α) (head pre tmp : Option Nat) :
    Option (Option Nat) :=
  if tmp ≠ head then pre.map h.next else some pre

/-- Go down the list with a trailing pointer, up to the first node where the
loop is left or to the end.  The number bounds the nodes that are visited. -/
def scanUntil (h : NodeHeap α) (stop : Nat → Bool) (head : Option Nat) :
    Nat → Option Nat → Option Nat → Option (Option Nat × Option Nat)
  | 0, _, _ => none
  | _ + 1, pre, none => some (pre, none)
  | n + 1, pre, some a =>
      if stop a then some (pre, some a)
      else do
        let pre ← h.trail head pre (some a)
        h.scanUntil stop head n pre (h.next a)

/-- Put new nodes behind the node `tmp`, each behind the one before; the last
one put. -/
def appendNodes (h : NodeHeap α) (tmp : Nat) : List α → NodeHeap α × Nat
  | [] => (h, tmp)
  | x :: rest =>
      appendNodes ((h.alloc x).setNext tmp (some h.size)) h.size rest

/-- Put new nodes into a list: they are the list if there is none, and else
stand behind its head. -/
def insertAll (h : NodeHeap α) : Option Nat → List α → NodeHeap α × Option Nat
  | none, [] => (h, none)
  | none, x :: rest => (((h.alloc x).appendNodes h.size rest).1, some h.size)
  | some a, items =>
      let (h', tmp) := h.appendNodes a items
      (h'.setNext tmp (h.next a), some a)

/-- `tmp = tmp->next`, that many times. -/
def advance (h : NodeHeap α) : Nat → Option Nat → Option (Option Nat)
  | 0, p => some p
  | n + 1, p => p.bind fun a => h.advance n (h.next a)

/-- One round of the exchange sort: every node from `p` on is compared with
the node `tmp`. -/
def sortRound (key : α → Int) (tmp : Nat) :
    Nat → NodeHeap α → Option Nat → Option (NodeHeap α)
  | 0, _, _ => none
  | _ + 1, h, none => some h
  | n + 1, h, some a =>
      let h := if key (h.data a) < key (h.data tmp) then h.swap tmp a else h
      sortRound key tmp n h (h.next a)

/-- The exchange sort of the list from `p` on. -/
def exchangeSort (key : α → Int) :
    Nat → NodeHeap α → Option Nat → Option (NodeHeap α)
  | 0, _, _ => none
  | _ + 1, h, none => some h
  | n + 1, h, some a => do
      let h ← sortRound key a (n + 1) h (h.next a)
      exchangeSort key n h (h.next a)

end NodeHeap

/-! What a list in the heap is. -/

/-- The pointers lead from `p` through the listed nodes to `q`. -/
def Segment (next : Nat → Option Nat) : Option Nat → List Nat → Option Nat → Prop
  | p, [], q => p = q
  | p, a :: rest, q => p = some a ∧ Segment next (next a) rest q

instance Segment.decidable (next : Nat → Option Nat) :
    ∀ p nodes q, Decidable (Segment next p nodes q)
  | p, [], q => inferInstanceAs (Decidable (p = q))
  | p, a :: rest, q =>
      have := Segment.decidable next (next a) rest q
      inferInstanceAs (Decidable (p = some a ∧ Segment next (next a) rest q))

section Segment

variable {next next' : Nat → Option Nat} {p q : Option Nat} {nodes : List Nat}
  {a : Nat}

theorem segment_append {first second : List Nat} :
    Segment next p (first ++ second) q ↔
      ∃ mid, Segment next p first mid ∧ Segment next mid second q := by
  induction first generalizing p with
  | nil => simp [Segment]
  | cons a rest ih => simp [Segment, ih, and_assoc]

theorem segment_concat : Segment next p (nodes ++ [a]) q ↔
    Segment next p nodes (some a) ∧ next a = q := by
  rw [segment_append]
  constructor
  · rintro ⟨mid, hfirst, rfl, hnext⟩
    exact ⟨hfirst, hnext⟩
  · rintro ⟨hfirst, hnext⟩
    exact ⟨some a, hfirst, rfl, hnext⟩

theorem Segment.congr (heq : ∀ a ∈ nodes, next' a = next a)
    (h : Segment next p nodes q) : Segment next' p nodes q := by
  induction nodes generalizing p with
  | nil => exact h
  | cons a rest ih =>
      refine ⟨h.1, ?_⟩
      rw [heq a List.mem_cons_self]
      exact ih (fun b hb => heq b (List.mem_cons_of_mem a hb)) h.2

theorem Segment.update {r : Option Nat} (hnot : a ∉ nodes)
    (h : Segment next p nodes q) :
    Segment (Function.update next a r) p nodes q := by
  refine h.congr fun b hb => Function.update_of_ne ?_ _ _
  rintro rfl
  exact hnot hb

theorem Segment.head_eq (h : Segment next p (a :: nodes) q) : p = some a := h.1

theorem Segment.unique {nodes' : List Nat} (h : Segment next p nodes none)
    (h' : Segment next p nodes' none) : nodes' = nodes := by
  induction nodes generalizing p nodes' with
  | nil =>
      cases nodes' with
      | nil => rfl
      | cons a rest => exact absurd (h.symm.trans h'.1) (Option.some_ne_none a).symm
  | cons a rest ih =>
      cases nodes' with
      | nil => exact absurd (h'.symm.trans h.1) (Option.some_ne_none a).symm
      | cons b rest' =>
          have heq : a = b := Option.some.inj (h.1.symm.trans h'.1)
          subst heq
          rw [ih h.2 h'.2]

/-- A list that ends is without repetition: from a node there is only one way
to the end. -/
theorem Segment.nodup (h : Segment next p nodes none) : nodes.Nodup := by
  induction nodes generalizing p with
  | nil => exact List.nodup_nil
  | cons a rest ih =>
      refine List.nodup_cons.mpr ⟨fun hmem => ?_, ih h.2⟩
      obtain ⟨first, second, hsplit⟩ := List.append_of_mem hmem
      have hrest := h.2
      rw [hsplit, segment_append] at hrest
      obtain ⟨mid, -, hsecond⟩ := hrest
      have hsame := Segment.unique (h.1 ▸ h) (hsecond.head_eq ▸ hsecond)
      rw [List.cons.injEq] at hsame
      have hlength := congrArg List.length hsplit
      rw [← hsame.2, List.length_append, List.length_cons] at hlength
      omega

end Segment

namespace NodeHeap

/-- The list from `p` on holds just the listed data, in nodes handed out. -/
def Holds (h : NodeHeap α) (p : Option Nat) (items : List α) : Prop :=
  ∃ nodes, Segment h.next p nodes none ∧ nodes.map h.data = items ∧
    ∀ a ∈ nodes, a < h.size

end NodeHeap

/-- A list visits no more nodes than were handed out. -/
theorem Segment.length_le {next : Nat → Option Nat} {p : Option Nat}
    {nodes : List Nat} {size : Nat} (h : Segment next p nodes none)
    (hsize : ∀ a ∈ nodes, a < size) : nodes.length ≤ size := by
  have hsub : nodes ⊆ List.range size := fun a ha => List.mem_range.mpr (hsize a ha)
  have hle := (h.nodup.subperm hsub).length_le
  rwa [List.length_range] at hle

namespace NodeHeap

theorem Holds.unique {h : NodeHeap α} {p : Option Nat} {items items' : List α}
    (hholds : h.Holds p items) (hholds' : h.Holds p items') : items' = items := by
  obtain ⟨nodes, hlist, rfl, -⟩ := hholds
  obtain ⟨nodes', hlist', rfl, -⟩ := hholds'
  rw [hlist.unique hlist']

section Fields

variable (h : NodeHeap α) (a b : Nat) (p : Option Nat) (x : α)

@[simp] theorem alloc_size : (h.alloc x).size = h.size + 1 := rfl

@[simp] theorem setNext_data : (h.setNext a p).data = h.data := rfl

@[simp] theorem setNext_next :
    (h.setNext a p).next = Function.update h.next a p := rfl

@[simp] theorem setNext_size : (h.setNext a p).size = h.size := rfl

@[simp] theorem setData_data :
    (h.setData a x).data = Function.update h.data a x := rfl

@[simp] theorem setData_next : (h.setData a x).next = h.next := rfl

@[simp] theorem setData_size : (h.setData a x).size = h.size := rfl

@[simp] theorem swap_next : (h.swap a b).next = h.next := rfl

@[simp] theorem swap_size : (h.swap a b).size = h.size := rfl

variable {h a b p x} in
theorem alloc_data_of_lt (hlt : a < h.size) : (h.alloc x).data a = h.data a :=
  Function.update_of_ne (Nat.ne_of_lt hlt) _ _

@[simp] theorem alloc_data_self : (h.alloc x).data h.size = x :=
  Function.update_self _ _ _

@[simp] theorem alloc_next_self : (h.alloc x).next h.size = none :=
  Function.update_self _ _ _

theorem swap_data_left (hne : a ≠ b) : (h.swap a b).data a = h.data b := by
  rw [swap, setData_data, Function.update_of_ne hne, setData_data,
    Function.update_self]

theorem swap_data_right : (h.swap a b).data b = h.data a := by
  rw [swap, setData_data, Function.update_self]

variable {c : Nat}

theorem swap_data_of_ne (ha : c ≠ a) (hb : c ≠ b) :
    (h.swap a b).data c = h.data c := by
  rw [swap, setData_data, Function.update_of_ne hb, setData_data,
    Function.update_of_ne ha]

end Fields

/-! Insertion. -/

section Insert

/-- New nodes behind `tmp` form one piece with it, and nothing but the pointer
of `tmp` changes in the nodes there were. -/
theorem appendNodes_spec (h : NodeHeap α) {tmp : Nat} (htmp : tmp < h.size)
    (items : List α) :
    ∃ nodes init last, tmp :: nodes = init ++ [last] ∧
      (h.appendNodes tmp items).2 = last ∧
      Segment (h.appendNodes tmp items).1.next (some tmp) init (some last) ∧
      nodes.map (h.appendNodes tmp items).1.data = items ∧
      (∀ a ∈ nodes, h.size ≤ a ∧ a < (h.appendNodes tmp items).1.size) ∧
      nodes.Nodup ∧ h.size ≤ (h.appendNodes tmp items).1.size ∧
      (∀ a < h.size, (h.appendNodes tmp items).1.data a = h.data a ∧
        (a ≠ tmp → (h.appendNodes tmp items).1.next a = h.next a)) ∧
      (h.next tmp = none → (h.appendNodes tmp items).1.next last = none) := by
  induction items generalizing h tmp with
  | nil =>
      exact ⟨[], [], tmp, rfl, rfl, rfl, rfl, by simp, List.nodup_nil,
        Nat.le_refl _, fun _ _ => ⟨rfl, fun _ => rfl⟩, fun hnone => hnone⟩
  | cons x rest ih =>
      obtain ⟨h₁, hh₁⟩ : ∃ h₁, h₁ = (h.alloc x).setNext tmp (some h.size) := ⟨_, rfl⟩
      have hsize₁ : h₁.size = h.size + 1 := by rw [hh₁]; rfl
      have hne : h.size ≠ tmp := Nat.ne_of_gt htmp
      have hdata₁ : ∀ a < h.size, h₁.data a = h.data a := by
        intro a ha
        rw [hh₁, setNext_data, alloc_data_of_lt ha]
      have hnext₁ : ∀ a < h.size, a ≠ tmp → h₁.next a = h.next a := by
        intro a ha hatmp
        rw [hh₁, setNext_next, Function.update_of_ne hatmp]
        exact Function.update_of_ne (Nat.ne_of_lt ha) _ _
      have hlink : h₁.next tmp = some h.size := by
        rw [hh₁, setNext_next, Function.update_self]
      have hend : h₁.next h.size = none := by
        rw [hh₁, setNext_next, Function.update_of_ne hne, alloc_next_self]
      obtain ⟨nodes, init, last, hsplit, hlast, hseg, hitems, hnew, hnodup, hle,
        hold, hnone⟩ := @ih h₁ h.size (by omega)
      rw [appendNodes, ← hh₁]
      have hx : (h₁.appendNodes h.size rest).1.data h.size = x := by
        rw [(hold h.size (by omega)).1, hh₁, setNext_data, alloc_data_self]
      refine ⟨h.size :: nodes, tmp :: init, last, by rw [hsplit]; rfl, hlast, ⟨rfl, ?_⟩,
        ?_, ?_, ?_, by omega, fun a ha => ⟨?_, fun hatmp => ?_⟩, fun _ => hnone hend⟩
      · rw [(hold tmp (by omega)).2 (Ne.symm hne), hlink]
        exact hseg
      · rw [List.map_cons, hx, hitems]
      · intro a ha
        rcases List.mem_cons.mp ha with rfl | ha
        · omega
        · have := hnew a ha
          omega
      · refine List.nodup_cons.mpr ⟨fun hmem => ?_, hnodup⟩
        have := (hnew _ hmem).1
        omega
      · rw [(hold a (by omega)).1, hdata₁ a ha]
      · rw [(hold a (by omega)).2 (Nat.ne_of_lt ha), hnext₁ a ha hatmp]

theorem Holds.alloc {h : NodeHeap α} {p : Option Nat} {items : List α}
    (hholds : h.Holds p items) (x : α) : (h.alloc x).Holds p items := by
  obtain ⟨nodes, hlist, rfl, hsize⟩ := hholds
  refine ⟨nodes, hlist.congr fun a ha => ?_, List.map_congr_left fun a ha => ?_,
    fun a ha => Nat.lt_succ_of_lt (hsize a ha)⟩
  · exact Function.update_of_ne (Nat.ne_of_lt (hsize a ha)) _ _
  · exact alloc_data_of_lt (hsize a ha)

/-- The new items are in the list, and those that were there still are. -/
theorem Holds.insertAll {h : NodeHeap α} {p : Option Nat} {items : List α}
    (hholds : h.Holds p items) (new : List α) :
    ∃ items', (h.insertAll p new).1.Holds (h.insertAll p new).2 items' ∧
      items'.Perm (items ++ new) := by
  obtain ⟨nodes, hlist, rfl, hsize⟩ := hholds
  cases nodes with
  | nil =>
      rw [show p = none from hlist]
      cases new with
      | nil => exact ⟨[], ⟨[], rfl, rfl, by simp⟩, List.Perm.refl _⟩
      | cons x rest =>
          obtain ⟨nodes, init, last, hsplit, -, hseg, hitems, hnew, -, hle, hold,
            hnone⟩ := appendNodes_spec (h.alloc x) (Nat.lt_succ_self h.size) rest
          refine ⟨x :: rest, ⟨h.size :: nodes, ?_, ?_, ?_⟩, List.Perm.refl _⟩
          · rw [hsplit, NodeHeap.insertAll, segment_concat]
            exact ⟨hseg, hnone (alloc_next_self _ _)⟩
          · rw [List.map_cons, NodeHeap.insertAll, hitems,
              (hold _ (Nat.lt_succ_self _)).1, alloc_data_self]
          · intro a ha
            rcases List.mem_cons.mp ha with rfl | ha
            · exact hle
            · exact (hnew a ha).2
  | cons a rest =>
      obtain ⟨rfl, hrest⟩ := hlist
      have hnodup : a ∉ rest := by
        have hall : Segment h.next (some a) (a :: rest) none := ⟨rfl, hrest⟩
        exact (List.nodup_cons.mp hall.nodup).1
      rw [List.forall_mem_cons] at hsize
      obtain ⟨nodes, init, last, hsplit, hlast, hseg, hitems, hnew, hnodes, hle,
        hold, -⟩ := appendNodes_spec h hsize.1 new
      have hchain : (init ++ [last]).Nodup := by
        rw [← hsplit]
        refine List.nodup_cons.mpr ⟨fun hmem => ?_, hnodes⟩
        exact absurd hsize.1 (Nat.not_lt.mpr (hnew a hmem).1)
      have hlast_init : last ∉ init := fun hmem =>
        (List.disjoint_of_nodup_append hchain) hmem List.mem_cons_self
      have hlast_rest : last ∉ rest := by
        intro hmem
        have hlast_mem : last ∈ a :: nodes := by rw [hsplit]; simp
        rcases List.mem_cons.mp hlast_mem with rfl | hlast_mem
        · exact hnodup hmem
        · exact absurd (hsize.2 last hmem) (Nat.not_lt.mpr (hnew last hlast_mem).1)
      have hinsert : h.insertAll (some a) new =
          ((h.appendNodes a new).1.setNext last (h.next a), some a) := by
        rw [← hlast]
        rfl
      rw [hinsert]
      refine ⟨h.data a :: (new ++ rest.map h.data), ⟨a :: nodes ++ rest, ?_, ?_, ?_⟩, ?_⟩
      · rw [hsplit, segment_append]
        refine ⟨h.next a, segment_concat.mpr ⟨hseg.update hlast_init, ?_⟩, ?_⟩
        · exact Function.update_self _ _ _
        · refine (hrest.congr fun b hb => ?_).update hlast_rest
          refine (hold b (hsize.2 b hb)).2 ?_
          rintro rfl
          exact hnodup hb
      · rw [setNext_data, List.cons_append, List.map_cons, List.map_append, hitems,
          (hold a hsize.1).1]
        congr 2
        exact List.map_congr_left fun b hb => (hold b (hsize.2 b hb)).1
      · intro b hb
        rw [setNext_size]
        rcases List.mem_append.mp hb with hb | hb
        · rcases List.mem_cons.mp hb with rfl | hb
          · omega
          · exact (hnew b hb).2
        · have := hsize.2 b hb
          omega
      · exact (List.perm_append_comm.cons _)

theorem advance_spec {h : NodeHeap α} {p : Option Nat} {first rest : List Nat}
    (hlist : Segment h.next p (first ++ rest) none) :
    ∃ q, h.advance first.length p = some q ∧ Segment h.next q rest none := by
  induction first generalizing p with
  | nil => exact ⟨p, rfl, hlist⟩
  | cons a first ih =>
      obtain ⟨rfl, hrest⟩ := hlist
      exact ih hrest

end Insert

/-! The loops. -/

section Trail

variable {h : NodeHeap α} {head tmp q : Option Nat} {before after : List Nat}
  {a : Nat}

/-- Where the trailing pointer stands when the nodes before `tmp` have been
passed: on the last of them, or on the head if there is none. -/
def trailing (head : Option Nat) (before : List Nat) : Option Nat :=
  before.getLast?.or head

theorem trail_spec (hlist : Segment h.next head (before ++ a :: after) none) :
    h.trail head (trailing head before) (some a) =
      some (trailing head (before ++ [a])) := by
  have hnodup := hlist.nodup
  rw [trailing, trailing, List.getLast?_concat, Option.some_or, trail]
  rcases List.eq_nil_or_concat' before with rfl | ⟨init, last, rfl⟩
  · have hhead : head = some a := hlist.1
    simp [hhead]
  · rw [segment_append] at hlist
    obtain ⟨mid, hbefore, hafter⟩ := hlist
    rw [segment_concat] at hbefore
    have hnext : h.next last = some a := hbefore.2.trans hafter.1
    have hne : some a ≠ head := by
      intro heq
      cases init with
      | nil =>
          have hlast : a = last := Option.some.inj (heq.trans hbefore.1)
          simp [hlast] at hnodup
      | cons first rest =>
          have hfirst : a = first := Option.some.inj (heq.trans hbefore.1.1)
          simp [hfirst] at hnodup
    simp [hne, hnext]

/-- The scan stops at the first node that ends it, with the trailing pointer
on the node before. -/
theorem scanUntil_spec (stop : Nat → Bool) {n : Nat} (before : List Nat)
    (hbefore : ∀ a ∈ before, stop a = false)
    (hlist : Segment h.next head (before ++ after) none)
    (htmp : Segment h.next tmp after none) (hn : after.length < n) :
    ∃ passed rest tmp', before ++ after = passed ++ rest ∧
      h.scanUntil stop head n (trailing head before) tmp =
        some (trailing head passed, tmp') ∧
      (∀ a ∈ passed, stop a = false) ∧
      (rest = [] ∧ tmp' = none ∨
        ∃ a tail, rest = a :: tail ∧ tmp' = some a ∧ stop a = true) := by
  induction after generalizing before tmp n with
  | nil =>
      obtain ⟨n, rfl⟩ : ∃ k, n = k + 1 := ⟨n - 1, by simp at hn; omega⟩
      refine ⟨before, [], none, rfl, ?_, hbefore, Or.inl ⟨rfl, rfl⟩⟩
      rw [show tmp = none from htmp]
      rfl
  | cons a rest ih =>
      obtain ⟨n, rfl⟩ : ∃ k, n = k + 1 := ⟨n - 1, by simp at hn; omega⟩
      obtain ⟨rfl, hrest⟩ := htmp
      by_cases hstop : stop a = true
      · refine ⟨before, a :: rest, some a, rfl, ?_, hbefore,
          Or.inr ⟨a, rest, rfl, rfl, hstop⟩⟩
        simp only [scanUntil, if_pos hstop]
      · have htrail := trail_spec hlist
        have hbefore' : ∀ b ∈ before ++ [a], stop b = false := by
          intro b hb
          rcases List.mem_append.mp hb with hb | hb
          · exact hbefore b hb
          · rw [List.mem_singleton.mp hb]
            exact Bool.not_eq_true _ ▸ hstop
        rw [List.append_cons] at hlist
        obtain ⟨passed, rest', tmp', hsplit, hrun, hpassed, hend⟩ :=
          ih (n := n) (before ++ [a]) hbefore' hlist hrest
            (by rw [List.length_cons] at hn; omega)
        refine ⟨passed, rest', tmp', ?_, ?_, hpassed, hend⟩
        · rw [List.append_cons]
          exact hsplit
        · simp only [scanUntil, if_neg hstop, htrail, Option.bind_eq_bind,
            Option.bind_some]
          exact hrun

/-- The nodes before `tmp` now lead to `q`. -/
theorem relink_spec (q : Option Nat) (hlist : Segment h.next head before tmp)
    (hnodup : before.Nodup) (htmp : ∀ a ∈ before, tmp ≠ some a) :
    ∃ h' head', h.relink head (trailing head before) tmp q =
        some (h', head') ∧
      Segment h'.next head' before q ∧ h'.data = h.data ∧ h'.size = h.size ∧
      ∀ a, a ∉ before → h'.next a = h.next a := by
  rcases List.eq_nil_or_concat' before with rfl | ⟨init, last, rfl⟩
  · have hhead : head = tmp := hlist
    refine ⟨h, q, ?_, rfl, rfl, rfl, fun _ _ => rfl⟩
    rw [relink, if_pos hhead.symm]
  · rw [segment_concat] at hlist
    have hne : tmp ≠ head := by
      cases init with
      | nil =>
          rw [show head = some last from hlist.1]
          exact htmp last (by simp)
      | cons first rest =>
          rw [show head = some first from hlist.1.1]
          exact htmp first (by simp)
    have hnot : last ∉ init := by
      intro hmem
      exact (List.disjoint_of_nodup_append hnodup) hmem List.mem_cons_self
    refine ⟨h.setNext last q, head, ?_, ?_, rfl, rfl, fun a ha => ?_⟩
    · rw [relink, if_neg hne, trailing, List.getLast?_concat]
      rfl
    · rw [segment_concat]
      exact ⟨hlist.1.update hnot, Function.update_self _ _ _⟩
    · refine Function.update_of_ne ?_ _ _
      rintro rfl
      exact ha (by simp)

end Trail

section Exchange

variable {key : α → Int} {tmp : Nat}

/-- A round leaves at `tmp` the least of the data it saw. -/
theorem sortRound_spec (key : α → Int) (n : Nat) (h : NodeHeap α) {p : Option Nat}
    {nodes : List Nat} (hlist : Segment h.next p nodes none)
    (hnot : tmp ∉ nodes) (hn : nodes.length < n) :
    ∃ h', sortRound key tmp n h p = some h' ∧ h'.next = h.next ∧
      h'.size = h.size ∧ (∀ a, a ≠ tmp → a ∉ nodes → h'.data a = h.data a) ∧
      ((tmp :: nodes).map h'.data).Perm ((tmp :: nodes).map h.data) ∧
      ∀ a ∈ tmp :: nodes, key (h'.data tmp) ≤ key (h.data a) := by
  induction nodes generalizing h p n with
  | nil =>
      obtain ⟨n, rfl⟩ : ∃ k, n = k + 1 := ⟨n - 1, by simp at hn; omega⟩
      rw [show p = none from hlist]
      exact ⟨h, rfl, rfl, rfl, fun _ _ _ => rfl, List.Perm.refl _, by simp⟩
  | cons a rest ih =>
      obtain ⟨n, rfl⟩ : ∃ k, n = k + 1 := ⟨n - 1, by simp at hn; omega⟩
      have hnodup := hlist.nodup
      obtain ⟨rfl, hrest⟩ := hlist
      rw [List.mem_cons, not_or] at hnot
      rw [List.nodup_cons] at hnodup
      rw [List.length_cons] at hn
      obtain ⟨h₁, hh₁⟩ : ∃ h₁, h₁ =
        if key (h.data a) < key (h.data tmp) then h.swap tmp a else h := ⟨_, rfl⟩
      -- what one comparison does to the two nodes, and to no other
      obtain ⟨hnext₁, hsize₁, hother₁, hperm₁, hle₁, hle₂⟩ :
          h₁.next = h.next ∧ h₁.size = h.size ∧
            (∀ b, b ≠ tmp → b ≠ a → h₁.data b = h.data b) ∧
            [h₁.data tmp, h₁.data a].Perm [h.data tmp, h.data a] ∧
            key (h₁.data tmp) ≤ key (h.data tmp) ∧
            key (h₁.data tmp) ≤ key (h.data a) := by
        rw [hh₁]
        split
        case isTrue hlt =>
          refine ⟨rfl, rfl, fun b hb hb' => swap_data_of_ne _ _ _ hb hb', ?_, ?_, ?_⟩
          · rw [swap_data_left _ _ _ hnot.1, swap_data_right]
            exact List.Perm.swap _ _ _
          · rw [swap_data_left _ _ _ hnot.1]
            exact Int.le_of_lt hlt
          · exact Int.le_of_eq (congrArg key (swap_data_left _ _ _ hnot.1))
        case isFalse hlt =>
          exact ⟨rfl, rfl, fun _ _ _ => rfl, List.Perm.refl _, Int.le_refl _,
            Int.not_lt.mp hlt⟩
      rw [← hnext₁] at hrest
      obtain ⟨h', hrun, hnext, hsize, hother, hperm, hmin⟩ :=
        ih h₁ hrest hnot.2 (n := n) (by omega)
      have hne : ∀ b ∈ rest, b ≠ tmp ∧ b ≠ a := by
        intro b hb
        refine ⟨?_, ?_⟩
        · rintro rfl
          exact hnot.2 hb
        · rintro rfl
          exact hnodup.1 hb
      have hrest₁ : rest.map h₁.data = rest.map h.data :=
        List.map_congr_left fun b hb => hother₁ b (hne b hb).1 (hne b hb).2
      have ha : h'.data a = h₁.data a := hother a (Ne.symm hnot.1) hnodup.1
      refine ⟨h', ?_, hnext.trans hnext₁, hsize.trans hsize₁, ?_, ?_, ?_⟩
      · simp only [sortRound, ← hh₁]
        exact hrun
      · intro b hb hmem
        rw [List.mem_cons, not_or] at hmem
        rw [hother b hb hmem.2, hother₁ b hb hmem.1]
      · simp only [List.map_cons] at hperm ⊢
        rw [ha]
        rw [← hrest₁]
        refine ((List.Perm.swap _ _ _).trans (hperm.cons _)).trans ?_
        exact (List.Perm.swap _ _ _).trans (hperm₁.append_right (rest.map h₁.data))
      · have hmin₁ : key (h'.data tmp) ≤ key (h₁.data tmp) :=
          hmin tmp List.mem_cons_self
        intro b hb
        rw [List.mem_cons, List.mem_cons] at hb
        rcases hb with rfl | rfl | hb
        · exact Int.le_trans hmin₁ hle₁
        · exact Int.le_trans hmin₁ hle₂
        · rw [← hother₁ b (hne b hb).1 (hne b hb).2]
          exact hmin b (List.mem_cons_of_mem _ hb)

/-- The exchange sort puts the data of a list in order, and touches nothing
else. -/
theorem exchangeSort_spec (key : α → Int) {n : Nat} (h : NodeHeap α) {p : Option Nat}
    {nodes : List Nat} (hlist : Segment h.next p nodes none)
    (hn : nodes.length < n) :
    ∃ h', exchangeSort key n h p = some h' ∧ h'.next = h.next ∧
      h'.size = h.size ∧ (∀ a, a ∉ nodes → h'.data a = h.data a) ∧
      (nodes.map h'.data).Perm (nodes.map h.data) ∧
      (nodes.map h'.data).Pairwise fun x y => key x ≤ key y := by
  induction nodes generalizing h p n with
  | nil =>
      obtain ⟨n, rfl⟩ : ∃ k, n = k + 1 := ⟨n - 1, by simp at hn; omega⟩
      rw [show p = none from hlist]
      exact ⟨h, rfl, rfl, rfl, fun _ _ => rfl, List.Perm.refl _, List.Pairwise.nil⟩
  | cons a rest ih =>
      obtain ⟨n, rfl⟩ : ∃ k, n = k + 1 := ⟨n - 1, by simp at hn; omega⟩
      have hnodup := List.nodup_cons.mp hlist.nodup
      obtain ⟨rfl, hrest⟩ := hlist
      rw [List.length_cons] at hn
      obtain ⟨h₁, hround, hnext₁, hsize₁, hother₁, hperm₁, hmin⟩ :=
        sortRound_spec key (n + 1) h hrest hnodup.1 (by omega)
      rw [← hnext₁] at hrest
      obtain ⟨h', hrun, hnext, hsize, hother, hperm, hsorted⟩ :=
        ih h₁ hrest (n := n) (by omega)
      have ha : h'.data a = h₁.data a := hother a hnodup.1
      refine ⟨h', ?_, hnext.trans hnext₁, hsize.trans hsize₁, ?_, ?_, ?_⟩
      · simp only [exchangeSort, hround, Option.bind_eq_bind, Option.bind_some]
        exact hrun
      · intro b hb
        rw [List.mem_cons, not_or] at hb
        rw [hother b hb.2, hother₁ b hb.1 hb.2]
      · rw [List.map_cons, ha]
        exact (hperm.cons _).trans hperm₁
      · rw [List.map_cons, List.pairwise_cons, ha]
        refine ⟨fun x hx => ?_, hsorted⟩
        -- every datum of the rest was seen by the round
        have hseen : x ∈ (a :: rest).map h.data :=
          hperm₁.mem_iff.mp (List.mem_cons_of_mem _ (hperm.mem_iff.mp hx))
        obtain ⟨b, hb, rfl⟩ := List.mem_map.mp hseen
        exact hmin b hb

/-- On a list that holds some data the sort ends, and it then holds them in
order. -/
theorem Holds.exchangeSort (key : α → Int) {h : NodeHeap α} {p : Option Nat} {items : List α}
    (hholds : h.Holds p items) :
    ∃ h' items', NodeHeap.exchangeSort key (h.size + 1) h p = some h' ∧
      h'.Holds p items' ∧ h'.size = h.size ∧ items'.Perm items ∧
      items'.Pairwise fun x y => key x ≤ key y := by
  obtain ⟨nodes, hlist, rfl, hsize⟩ := hholds
  obtain ⟨h', hrun, hnext, hsize', -, hperm, hsorted⟩ :=
    exchangeSort_spec key h hlist
      (Nat.lt_succ_of_le (hlist.length_le hsize))
  refine ⟨h', nodes.map h'.data, hrun, ⟨nodes, ?_, rfl, ?_⟩, hsize', hperm, hsorted⟩
  · rw [hnext]
    exact hlist
  · rw [hsize']
    exact hsize

end Exchange

end NodeHeap

end PintosLabs
