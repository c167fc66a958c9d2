/-
Doubly linked lists between two header elements, as the kernel's list library
builds them.  The links are stored in the elements, which lie inside of other
structures; here an element is only its address.  An operation that fails its
assertion has no result.
-/
import Mathlib.Algebra.Ring.Int.Defs
import Mathlib.Algebra.Ring.Nat
import Mathlib.Data.List.Chain
import Mathlib.Data.List.Infix
import Mathlib.Data.List.Nodup
import Mathlib.Logic.Function.Basic
import Mathlib.Tactic.Common

namespace PintosLabs

universe u

/-- The two pointers of an element; `none` is the null pointer. -/
structure ListElem (A : Type u) where
  prev : Option A
  next : Option A
deriving Repr, DecidableEq

/-- What the elements hold, by their addresses. -/
abbrev ListLinks (A : Type u) := A → ListElem A

/-- The addresses of the two header elements of a list. -/
structure ListHeader (A : Type u) where
  head : A
  tail : A

namespace ListLinks

variable {A : Type u} [DecidableEq A]

def isHead (m : ListLinks A) (elem : A) : Bool :=
  (m elem).prev = none && (m elem).next ≠ none

def isInterior (m : ListLinks A) (elem : A) : Bool :=
  (m elem).prev ≠ none && (m elem).next ≠ none

def isTail (m : ListLinks A) (elem : A) : Bool :=
  (m elem).prev ≠ none && (m elem).next = none

def setNext (m : ListLinks A) (elem : A) (p : Option A) : ListLinks A :=
  Function.update m elem { m elem with next := p }

def setPrev (m : ListLinks A) (elem : A) (p : Option A) : ListLinks A :=
  Function.update m elem { m elem with prev := p }

def listInit (m : ListLinks A) (list : ListHeader A) : ListLinks A :=
  Function.update
    (Function.update m list.head ⟨none, some list.tail⟩)
    list.tail ⟨some list.head, none⟩

def listBegin (m : ListLinks A) (list : ListHeader A) : Option A :=
  (m list.head).next

def listEnd (list : ListHeader A) : A :=
  list.tail

/-- The element after `elem`: the assertion asks for a head or an interior
element. -/
def listNext (m : ListLinks A) (elem : A) : Option A :=
  if m.isHead elem || m.isInterior elem then (m elem).next else none

/-- Put `elem` just before `before`, an interior element or a tail. -/
def listInsert (m : ListLinks A) (before elem : A) : Option (ListLinks A) :=
  if m.isInterior before || m.isTail before then do
    let last ← (m before).prev
    let m := m.setPrev elem (some last)
    let m := m.setNext elem (some before)
    let m := m.setNext last (some elem)
    pure (m.setPrev before (some elem))
  else none

def listPushBack (m : ListLinks A) (list : ListHeader A) (elem : A) :
    Option (ListLinks A) :=
  m.listInsert (listEnd list) elem

def listRemove (m : ListLinks A) (elem : A) : Option (ListLinks A) :=
  if m.isInterior elem then do
    let before ← (m elem).prev
    let after ← (m elem).next
    let m := m.setNext before (some after)
    pure (m.setPrev after (some before))
  else none

/-- `*copy = *list;`: the copy has the pointers of the list, and header
elements of its own. -/
def copyList (m : ListLinks A) (copy list : ListHeader A) : ListLinks A :=
  Function.update (Function.update m copy.head (m list.head))
    copy.tail (m list.tail)

/-! What a list in memory is. -/

/-- The pointers of two neighbours lead to each other. -/
def Linked (m : ListLinks A) (a b : A) : Prop :=
  (m a).next = some b ∧ (m b).prev = some a

/-- The interior elements of the list are `elems`, in this order. -/
structure Holds (m : ListLinks A) (list : ListHeader A) (elems : List A) :
    Prop where
  linked : (list.head :: elems ++ [list.tail]).IsChain m.Linked
  nodup : (list.head :: elems ++ [list.tail]).Nodup
  head_prev : (m list.head).prev = none
  tail_next : (m list.tail).next = none

section

variable {m m' : ListLinks A} {list : ListHeader A} {elems xs ys : List A}
  {a b c e : A} {p : Option A}

@[simp] theorem setNext_prev : ((m.setNext e p) c).prev = (m c).prev := by
  by_cases h : c = e
  · subst h
    simp [setNext]
  · simp [setNext, h]

@[simp] theorem setNext_next :
    ((m.setNext e p) c).next = if c = e then p else (m c).next := by
  by_cases h : c = e
  · subst h
    simp [setNext]
  · simp [setNext, h]

@[simp] theorem setPrev_next : ((m.setPrev e p) c).next = (m c).next := by
  by_cases h : c = e
  · subst h
    simp [setPrev]
  · simp [setPrev, h]

@[simp] theorem setPrev_prev :
    ((m.setPrev e p) c).prev = if c = e then p else (m c).prev := by
  by_cases h : c = e
  · subst h
    simp [setPrev]
  · simp [setPrev, h]

omit [DecidableEq A] in
theorem listNext_of_next (h : (m e).next = some a) :
    m.listNext e = some a := by
  unfold listNext isHead isInterior
  cases hprev : (m e).prev <;> simp [h]

omit [DecidableEq A] in
theorem listNext_of_tail (h : (m e).next = none) : m.listNext e = none := by
  simp [listNext, isHead, isInterior, h]

omit [DecidableEq A] in
/-- A chain rests on the next pointers of all elements but the last, and on
the previous pointers of all but the first. -/
theorem isChain_congr {chain : List A}
    (hnext : ∀ a ∈ chain.dropLast, (m' a).next = (m a).next)
    (hprev : ∀ a ∈ chain.tail, (m' a).prev = (m a).prev)
    (hchain : chain.IsChain m.Linked) : chain.IsChain m'.Linked := by
  induction chain with
  | nil => simp
  | cons a rest ih =>
      cases rest with
      | nil => simp
      | cons b rest =>
          rw [List.isChain_cons_cons] at hchain ⊢
          refine ⟨⟨?_, ?_⟩, ih ?_ ?_ hchain.2⟩
          · rw [hnext a (by simp)]
            exact hchain.1.1
          · rw [hprev b (by simp)]
            exact hchain.1.2
          · exact fun c hc => hnext c (by simp [hc])
          · exact fun c hc => hprev c (by
              simp only [List.tail_cons] at hc ⊢
              exact List.mem_cons_of_mem b hc)

omit [DecidableEq A] in
theorem Holds.congr (hlist : m.Holds list elems)
    (hsame : ∀ a ∈ list.head :: elems ++ [list.tail], m' a = m a) :
    m'.Holds list elems where
  linked :=
    isChain_congr
      (fun a ha => by rw [hsame a (List.mem_of_mem_dropLast ha)])
      (fun a ha => by rw [hsame a (List.mem_of_mem_tail ha)]) hlist.linked
  nodup := hlist.nodup
  head_prev := by rw [hsame _ (by simp)]; exact hlist.head_prev
  tail_next := by rw [hsame _ (by simp)]; exact hlist.tail_next

omit [DecidableEq A] in
theorem isChain_front
    (hnext : ∀ c ∈ xs, (m' c).next = (m c).next)
    (hprev : ∀ c ∈ xs ++ [a], (m' c).prev = (m c).prev)
    (hchain : (xs ++ [a]).IsChain m.Linked) :
    (xs ++ [a]).IsChain m'.Linked :=
  isChain_congr (fun c hc => hnext c (by rwa [List.dropLast_concat] at hc))
    (fun c hc => hprev c (List.mem_of_mem_tail hc)) hchain

omit [DecidableEq A] in
theorem isChain_back
    (hnext : ∀ c ∈ b :: ys, (m' c).next = (m c).next)
    (hprev : ∀ c ∈ ys, (m' c).prev = (m c).prev)
    (hchain : (b :: ys).IsChain m.Linked) : (b :: ys).IsChain m'.Linked :=
  isChain_congr (fun c hc => hnext c (List.mem_of_mem_dropLast hc)) hprev hchain

omit [DecidableEq A] in
/-- Two neighbours of a list without repetitions. -/
theorem neighbours_of_nodup (hnodup : (xs ++ a :: b :: ys).Nodup) :
    a ≠ b ∧ (∀ c ∈ xs, c ≠ a ∧ c ≠ b) ∧ ∀ c ∈ ys, c ≠ a ∧ c ≠ b := by
  obtain ⟨-, hback, hdisjoint⟩ := List.nodup_append.mp hnodup
  obtain ⟨ha, hb, -⟩ := by simpa only [List.nodup_cons] using hback
  refine ⟨fun heq => ha (by simp [heq]), fun c hc => ⟨?_, ?_⟩,
    fun c hc => ⟨?_, ?_⟩⟩
  · exact hdisjoint c hc a (by simp)
  · exact hdisjoint c hc b (by simp)
  · exact fun heq => ha (by simp [← heq, hc])
  · exact fun heq => hb (heq ▸ hc)

/-- The four assignments of an insertion between neighbours. -/
theorem isChain_insert (hchain : (xs ++ a :: b :: ys).IsChain m.Linked)
    (hnodup : (xs ++ a :: b :: ys).Nodup) (hnew : e ∉ xs ++ a :: b :: ys)
    (hnext : ∀ c, (m' c).next =
      if c = a then some e else if c = e then some b else (m c).next)
    (hprev : ∀ c, (m' c).prev =
      if c = b then some e else if c = e then some a else (m c).prev) :
    (xs ++ a :: e :: b :: ys).IsChain m'.Linked := by
  obtain ⟨hab, hxs, hys⟩ := neighbours_of_nodup hnodup
  have hold : ∀ c ∈ xs ++ a :: b :: ys, c ≠ e := fun c hc heq =>
    hnew (heq ▸ hc)
  rw [List.isChain_split] at hchain ⊢
  obtain ⟨hfront, hback⟩ := hchain
  rw [List.isChain_cons_cons] at hback
  rw [List.isChain_cons_cons, List.isChain_cons_cons]
  refine ⟨isChain_front (fun c hc => ?_) (fun c hc => ?_) hfront,
    ⟨?_, ?_⟩, ⟨?_, ?_⟩,
    isChain_back (fun c hc => ?_) (fun c hc => ?_) hback.2⟩
  · rw [hnext c, if_neg (hxs c hc).1, if_neg (hold c (by simp [hc]))]
  · have hcb : c ≠ b := by
      rcases List.mem_append.mp hc with hc | hc
      · exact (hxs c hc).2
      · rwa [List.mem_singleton.mp hc]
    have hce : c ≠ e := hold c (by
      rcases List.mem_append.mp hc with hc | hc
      · simp [hc]
      · simp [List.mem_singleton.mp hc])
    rw [hprev c, if_neg hcb, if_neg hce]
  · rw [hnext a, if_pos rfl]
  · rw [hprev e, if_neg (hold b (by simp)).symm, if_pos rfl]
  · rw [hnext e, if_neg (hold a (by simp)).symm, if_pos rfl]
  · rw [hprev b, if_pos rfl]
  · have hca : c ≠ a := by
      rcases List.mem_cons.mp hc with rfl | hc
      · exact hab.symm
      · exact (hys c hc).1
    have hce : c ≠ e := hold c (List.mem_append_right xs
      (List.mem_cons_of_mem a hc))
    rw [hnext c, if_neg hca, if_neg hce]
  · rw [hprev c, if_neg (hys c hc).2, if_neg (hold c (by simp [hc]))]

/-- The two assignments of a removal between neighbours. -/
theorem isChain_remove (hchain : (xs ++ a :: e :: b :: ys).IsChain m.Linked)
    (hnodup : (xs ++ a :: b :: ys).Nodup)
    (hnext : ∀ c, (m' c).next = if c = a then some b else (m c).next)
    (hprev : ∀ c, (m' c).prev = if c = b then some a else (m c).prev) :
    (xs ++ a :: b :: ys).IsChain m'.Linked := by
  obtain ⟨hab, hxs, hys⟩ := neighbours_of_nodup hnodup
  rw [List.isChain_split] at hchain ⊢
  obtain ⟨hfront, hback⟩ := hchain
  rw [List.isChain_cons_cons, List.isChain_cons_cons] at hback
  rw [List.isChain_cons_cons]
  refine ⟨isChain_front (fun c hc => ?_) (fun c hc => ?_) hfront, ⟨?_, ?_⟩,
    isChain_back (fun c hc => ?_) (fun c hc => ?_) hback.2.2⟩
  · rw [hnext c, if_neg (hxs c hc).1]
  · have hcb : c ≠ b := by
      rcases List.mem_append.mp hc with hc | hc
      · exact (hxs c hc).2
      · rwa [List.mem_singleton.mp hc]
    rw [hprev c, if_neg hcb]
  · rw [hnext a, if_pos rfl]
  · rw [hprev b, if_pos rfl]
  · have hca : c ≠ a := by
      rcases List.mem_cons.mp hc with rfl | hc
      · exact hab.symm
      · exact (hys c hc).1
    rw [hnext c, if_neg hca]
  · rw [hprev c, if_neg (hys c hc).2]

omit [DecidableEq A] in
theorem exists_concat (x : A) (zs : List A) : ∃ xs a, x :: zs = xs ++ [a] :=
  ⟨_, _, (List.dropLast_append_getLast (List.cons_ne_nil x zs)).symm⟩

omit [DecidableEq A] in
/-- Behind the head, `listNext` leads from every element to its neighbour, up
to the tail. -/
theorem Holds.isChain_listNext (hlist : m.Holds list elems) :
    (elems ++ [list.tail]).IsChain fun a b => m.listNext a = some b :=
  hlist.linked.tail.imp fun _ _ hlink => listNext_of_next hlink.1

omit [DecidableEq A] in
theorem Holds.listBegin_eq (hlist : m.Holds list elems) :
    m.listBegin list = (elems ++ [list.tail]).head? := by
  have hchain := hlist.linked
  cases elems with
  | nil => exact hchain.rel.1
  | cons a rest => exact hchain.rel.1

/-- The new element of `listPushBack` is the last one. -/
theorem Holds.pushBack (hlist : m.Holds list elems)
    (hnew : e ∉ list.head :: elems ++ [list.tail]) :
    ∃ m', m.listPushBack list e = some m' ∧
      m'.Holds list (elems ++ [e]) := by
  obtain ⟨xs, a, hxs⟩ := exists_concat list.head elems
  have hfull : list.head :: elems ++ [list.tail] = xs ++ [a, list.tail] := by
    rw [hxs, List.append_assoc, List.singleton_append]
  have hfull' : list.head :: (elems ++ [e]) ++ [list.tail] =
      xs ++ [a, e, list.tail] := by
    rw [← List.cons_append, hxs]
    simp
  have hchain := hlist.linked
  have hnodup := hlist.nodup
  rw [hfull] at hchain hnodup hnew
  have hlink : m.Linked a list.tail := by
    rw [List.isChain_split, List.isChain_cons_cons] at hchain
    exact hchain.2.1
  have htail : m.isTail list.tail := by
    simp [isTail, hlink.2, hlist.tail_next]
  have hne : e ≠ list.tail := fun heq => hnew (by simp [heq])
  have hhead : list.head ≠ e := fun heq => hnew (by
    rw [← hfull, ← heq]
    simp)
  have hends : list.head ≠ list.tail := by
    have hnodup := hlist.nodup
    simp only [List.cons_append, List.nodup_cons, List.mem_append,
      List.mem_singleton, not_or] at hnodup
    exact hnodup.1.2
  have haTail : list.tail ≠ a :=
    (neighbours_of_nodup hnodup).1.symm
  refine ⟨(((m.setPrev e (some a)).setNext e (some list.tail)).setNext a
      (some e)).setPrev list.tail (some e), ?_, ⟨?_, ?_, ?_, ?_⟩⟩
  · simp [listPushBack, listInsert, listEnd, htail, hlink.2]
  · rw [hfull']
    exact isChain_insert hchain hnodup hnew (fun c => by simp)
      (fun c => by simp)
  · rw [hfull']
    have hperm : (xs ++ [a, e, list.tail]).Perm (e :: (xs ++ [a, list.tail])) := by
      rw [show xs ++ [a, e, list.tail] = (xs ++ [a]) ++ e :: [list.tail] by
        simp]
      refine List.perm_middle.trans ?_
      simp
    exact hperm.nodup_iff.mpr (List.nodup_cons.mpr ⟨hnew, hnodup⟩)
  · simp [hends, hhead, hlist.head_prev]
  · simp [hne.symm, haTail, hlist.tail_next]

/-- `listRemove` takes out the element it is given, and no other. -/
theorem Holds.remove (hlist : m.Holds list (xs ++ e :: ys)) :
    ∃ m', m.listRemove e = some m' ∧ m'.Holds list (xs ++ ys) := by
  obtain ⟨xs', a, hxs⟩ := exists_concat list.head xs
  obtain ⟨b, ys', hys⟩ : ∃ b ys', ys ++ [list.tail] = b :: ys' :=
    List.exists_cons_of_ne_nil (by simp)
  have hfull : list.head :: (xs ++ e :: ys) ++ [list.tail] =
      xs' ++ a :: e :: b :: ys' := by
    rw [← List.cons_append, hxs, List.append_assoc, List.append_assoc,
      List.cons_append, List.cons_append, hys, List.nil_append]
  have hfull' : list.head :: (xs ++ ys) ++ [list.tail] =
      xs' ++ a :: b :: ys' := by
    rw [← List.cons_append, hxs, List.append_assoc, List.append_assoc, hys,
      List.singleton_append]
  have hchain := hlist.linked
  have hnodup : (list.head :: (xs ++ ys) ++ [list.tail]).Nodup :=
    hlist.nodup.sublist (by simp)
  rw [hfull] at hchain
  rw [hfull'] at hnodup
  have hlinks : m.Linked a e ∧ m.Linked e b := by
    rw [List.isChain_split, List.isChain_cons_cons,
      List.isChain_cons_cons] at hchain
    exact ⟨hchain.2.1, hchain.2.2.1⟩
  have hb : b ∈ ys ++ [list.tail] := by simp [hys]
  have ha : a ∈ list.head :: xs := by simp [hxs]
  have hapart : ∀ c ∈ list.head :: xs, ∀ d ∈ ys ++ [list.tail], c ≠ d := by
    have hsplit := hlist.nodup
    rw [show list.head :: (xs ++ e :: ys) ++ [list.tail] =
      (list.head :: xs) ++ e :: (ys ++ [list.tail]) by simp] at hsplit
    exact fun c hc d hd =>
      (List.nodup_append.mp hsplit).2.2 c hc d (List.mem_cons_of_mem e hd)
  have hbHead : list.head ≠ b := hapart list.head (by simp) b hb
  have haTail : list.tail ≠ a := (hapart a ha list.tail (by simp)).symm
  refine ⟨(m.setNext a (some b)).setPrev b (some a), ?_, ⟨?_, ?_, ?_, ?_⟩⟩
  · simp [listRemove, isInterior, hlinks.1.2, hlinks.2.1]
  · rw [hfull']
    exact isChain_remove hchain hnodup (fun c => by simp) (fun c => by simp)
  · rw [hfull']
    exact hnodup
  · simp [hbHead, hlist.head_prev]
  · simp [haTail, hlist.tail_next]

theorem copyList_of_ne {copy : ListHeader A} (hhead : e ≠ copy.head)
    (htail : e ≠ copy.tail) : m.copyList copy list e = m e := by
  rw [copyList, Function.update_of_ne htail, Function.update_of_ne hhead]

theorem copyList_head {copy : ListHeader A} (hne : copy.head ≠ copy.tail) :
    m.copyList copy list copy.head = m list.head := by
  rw [copyList, Function.update_of_ne hne, Function.update_self]

/-- A list does not notice that its header is copied. -/
theorem Holds.copyList {copy : ListHeader A} (hlist : m.Holds list elems)
    (hhead : copy.head ∉ list.head :: elems ++ [list.tail])
    (htail : copy.tail ∉ list.head :: elems ++ [list.tail]) :
    (m.copyList copy list).Holds list elems :=
  hlist.congr fun _ ha => copyList_of_ne
    (ne_of_mem_of_not_mem ha hhead) (ne_of_mem_of_not_mem ha htail)

end

/-! A loop that follows a list up to the first element it looks for. -/

/-- Where the loop is left: at an element it looks for, at the end it was
given, or in the assertion of `listNext`. -/
inductive ScanEnd (A : Type u)
  | found (elem : A)
  | ended
  | failed
deriving Repr, DecidableEq

/-- `for (e = ...; e != last; e = list_next (e)) if (stop (e)) ...`, with the
elements that are read.  The number bounds the rounds. -/
def scan (m : ListLinks A) (stop : A → Bool) (last : A) :
    Nat → A → Option (List A × ScanEnd A)
  | 0, _ => none
  | n + 1, e =>
      if e = last then some ([], .ended)
      else if stop e then some ([e], .found e)
      else
        match m.listNext e with
        | none => some ([e], .failed)
        | some after =>
            (m.scan stop last n after).map fun out => (e :: out.1, out.2)

section Scan

variable {m : ListLinks A} {stop : A → Bool} {last a e : A} {xs ys : List A}
  {n : Nat}

theorem scan_stop (hlast : e ≠ last) (hstop : stop e) :
    m.scan stop last (n + 1) e = some ([e], .found e) := by
  rw [scan, if_neg hlast, if_pos hstop]

theorem scan_next (hlast : e ≠ last) (hstop : ¬ stop e)
    (hnext : m.listNext e = some a) : m.scan stop last (n + 1) e =
      (m.scan stop last n a).map fun out => (e :: out.1, out.2) := by
  rw [scan, if_neg hlast, if_neg hstop, hnext]

theorem scan_assert (hlast : e ≠ last) (hstop : ¬ stop e)
    (hnext : m.listNext e = none) :
    m.scan stop last (n + 1) e = some ([e], .failed) := by
  rw [scan, if_neg hlast, if_neg hstop, hnext]

/-- The bound on the rounds does not matter to what the loop does. -/
theorem scan_unique {k : Nat} {r r' : List A × ScanEnd A}
    (hn : m.scan stop last n a = some r) (hk : m.scan stop last k a = some r') :
    r = r' := by
  induction n generalizing a k r r' with
  | zero => simp [scan] at hn
  | succ n ih =>
      cases k with
      | zero => simp [scan] at hk
      | succ k =>
          by_cases hlast : a = last
          · simp only [scan, if_pos hlast, Option.some.injEq] at hn hk
            exact hn.symm.trans hk
          by_cases hstop : stop a
          · rw [scan_stop hlast hstop, Option.some.injEq] at hn hk
            exact hn.symm.trans hk
          cases hnext : m.listNext a with
          | none =>
              rw [scan_assert hlast hstop hnext, Option.some.injEq] at hn hk
              exact hn.symm.trans hk
          | some b =>
              rw [scan_next hlast hstop hnext, Option.map_eq_some_iff] at hn hk
              obtain ⟨out, hout, rfl⟩ := hn
              obtain ⟨out', hout', rfl⟩ := hk
              rw [ih hout hout']

/-- The loop reads up to the first element it looks for, and no further. -/
theorem scan_found
    (hchain : (xs ++ e :: ys).IsChain fun a b => m.listNext a = some b)
    (hstart : (xs ++ e :: ys).head? = some a)
    (hlast : ∀ c ∈ xs ++ [e], c ≠ last) (hbefore : ∀ c ∈ xs, ¬ stop c)
    (hstop : stop e) :
    m.scan stop last (xs.length + 1) a = some (xs ++ [e], .found e) := by
  induction xs generalizing a with
  | nil =>
      obtain rfl : e = a := by simpa using hstart
      exact scan_stop (hlast e (by simp)) hstop
  | cons x rest ih =>
      obtain rfl : x = a := by simpa using hstart
      obtain ⟨b, hb⟩ : ∃ b, (rest ++ e :: ys).head? = some b := by
        cases rest <;> simp
      have hnext : m.listNext x = some b := by
        rw [List.cons_append, List.isChain_cons] at hchain
        exact hchain.1 b hb
      rw [List.length_cons, scan_next (hlast x (by simp))
        (hbefore x (by simp)) hnext,
        ih hchain.tail hb (fun c hc => hlast c (by simp_all))
          (fun c hc => hbefore c (by simp [hc]))]
      rfl

/-- A loop that looks for another end than that of the list it follows does
not return. -/
theorem scan_past_end
    (hchain : (xs ++ [e]).IsChain fun a b => m.listNext a = some b)
    (hend : m.listNext e = none) (hstart : (xs ++ [e]).head? = some a)
    (hlast : ∀ c ∈ xs ++ [e], c ≠ last) (hstop : ∀ c ∈ xs ++ [e], ¬ stop c) :
    m.scan stop last n a =
      if n ≤ xs.length then none else some (xs ++ [e], .failed) := by
  induction xs generalizing a n with
  | nil =>
      obtain rfl : e = a := by simpa using hstart
      cases n with
      | zero => rfl
      | succ n => exact scan_assert (hlast e (by simp)) (hstop e (by simp)) hend
  | cons x rest ih =>
      obtain rfl : x = a := by simpa using hstart
      obtain ⟨b, hb⟩ : ∃ b, (rest ++ [e]).head? = some b := by
        cases rest <;> simp
      have hnext : m.listNext x = some b := by
        rw [List.cons_append, List.isChain_cons] at hchain
        exact hchain.1 b hb
      cases n with
      | zero => rfl
      | succ n =>
          rw [scan_next (hlast x (by simp)) (hstop x (by simp)) hnext,
            ih hchain.tail hb (fun c hc => hlast c (by simp_all))
              (fun c hc => hstop c (by simp_all))]
          by_cases hn : n ≤ rest.length
          · simp [hn]
          · simp [hn]

end Scan

end ListLinks

end PintosLabs
