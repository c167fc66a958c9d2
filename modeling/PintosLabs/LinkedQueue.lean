/-
A linked list used as a queue: a loop that looks at every node together with
the one before it, a node put at the end, a node taken out wherever it stands,
and a change of the data of every node.
-/
import PintosLabs.LinkedNodes

namespace PintosLabs

universe u v

variable {α : Type u} {β : Type v}

namespace NodeHeap

/-- `for (prev = head, p = head; p != NULL; prev = p, p = p->next)`, with what
the body makes of what it has so far.  The number bounds the nodes that are
visited. -/
def foldPairs (h : NodeHeap α) (body : β → Option Nat → Nat → β) :
    Nat → Option Nat → Option Nat → β → Option β
  | 0, _, _, _ => none
  | _ + 1, _, none, acc => some acc
  | n + 1, prev, some p, acc =>
      h.foldPairs body n (some p) (h.next p) (body acc prev p)

/-- The same loop, left at the first node where `stop` holds: the node before it
and the node, or neither. -/
def findPair (h : NodeHeap α) (stop : Nat → Bool) :
    Nat → Option Nat → Option Nat → Option (Option Nat × Option Nat)
  | 0, _, _ => none
  | _ + 1, _, none => some (none, none)
  | n + 1, prev, some p =>
      if stop p then some (prev, some p)
      else h.findPair stop n (some p) (h.next p)

/-- `for (p = head; p->next != NULL; p = p->next);` -/
def lastFrom (h : NodeHeap α) : Nat → Nat → Option Nat
  | 0, _ => none
  | n + 1, p =>
      match h.next p with
      | none => some p
      | some q => h.lastFrom n q

/-- `if (head) { ...; p->next = a; } else head = a;` -/
def putLast (h : NodeHeap α) (head : Option Nat) (a : Nat) :
    Option (NodeHeap α × Option Nat) :=
  match head with
  | none => some (h, some a)
  | some first =>
      (h.lastFrom (h.size + 1) first).map fun p => (h.setNext p (some a), head)

/-- `if (prev == a) head = head->next; else prev->next = a->next;` and then
`if (a) a->next = NULL;` -/
def unlink (h : NodeHeap α) (head prev a : Option Nat) :
    Option (NodeHeap α × Option Nat) :=
  let moved :=
    if prev = a then head.map fun first => (h, h.next first)
    else prev.bind fun p => a.map fun q => (h.setNext p (h.next q), head)
  match a with
  | none => moved
  | some q => moved.map fun (h, head) => (h.setNext q none, head)

/-- `for (p = head; p != NULL; p = p->next)`, each node's data replaced. -/
def mapFrom (h : NodeHeap α) (f : α → α) : Nat → Option Nat → Option (NodeHeap α)
  | 0, _ => none
  | _ + 1, none => some h
  | n + 1, some p => (h.setData p (f (h.data p))).mapFrom f n (h.next p)

variable {h : NodeHeap α} {head p : Option Nat} {nodes before after : List Nat} {a : Nat}

/-- The loop goes through the nodes from `p` on, each with the one before. -/
theorem foldPairs_spec (body : β → Option Nat → Nat → β) {P : List Nat → β → Prop}
    {n : Nat} (hbody : ∀ {before : List Nat} {a : Nat} {after : List Nat} {acc : β},
      nodes = before ++ a :: after → P before acc →
        P (before ++ [a]) (body acc (trailing head before) a))
    (hsplit : nodes = before ++ after) {prev : Option Nat}
    (hprev : after ≠ [] → prev = trailing head before)
    (hlist : Segment h.next p after none) (hn : after.length < n) {acc : β}
    (hacc : P before acc) :
    ∃ acc', h.foldPairs body n prev p acc = some acc' ∧ P nodes acc' := by
  induction after generalizing before prev p acc n with
  | nil =>
      obtain ⟨n, rfl⟩ : ∃ k, n = k + 1 := ⟨n - 1, by simp at hn; omega⟩
      rw [show p = none from hlist]
      rw [List.append_nil] at hsplit
      exact ⟨acc, rfl, hsplit ▸ hacc⟩
  | cons a rest ih =>
      obtain ⟨n, rfl⟩ : ∃ k, n = k + 1 := ⟨n - 1, by simp at hn; omega⟩
      obtain ⟨rfl, hrest⟩ := hlist
      have hstep := hbody hsplit hacc
      rw [← hprev (List.cons_ne_nil a rest)] at hstep
      refine ih (n := n) (by rw [hsplit, List.append_assoc]; rfl) (fun _ => ?_) hrest
        (by rw [List.length_cons] at hn; omega) hstep
      rw [trailing, List.getLast?_concat, Option.some_or]

theorem findPair_spec (stop : Nat → Bool) {n : Nat} (before : List Nat)
    (hbefore : ∀ b ∈ before, stop b = false) {prev : Option Nat}
    (hprev : after ≠ [] → prev = trailing head before)
    (hlist : Segment h.next p after none) (hn : after.length < n) :
    (h.findPair stop n prev p = some (none, none) ∧
        ∀ b ∈ before ++ after, stop b = false) ∨
      ∃ passed a rest, before ++ after = passed ++ a :: rest ∧
        (∀ b ∈ passed, stop b = false) ∧ stop a = true ∧
        h.findPair stop n prev p = some (trailing head passed, some a) := by
  induction after generalizing before prev p n with
  | nil =>
      obtain ⟨n, rfl⟩ : ∃ k, n = k + 1 := ⟨n - 1, by simp at hn; omega⟩
      rw [show p = none from hlist, List.append_nil]
      exact Or.inl ⟨rfl, hbefore⟩
  | cons a rest ih =>
      obtain ⟨n, rfl⟩ : ∃ k, n = k + 1 := ⟨n - 1, by simp at hn; omega⟩
      obtain ⟨rfl, hrest⟩ := hlist
      rw [List.length_cons] at hn
      by_cases hstop : stop a = true
      · refine Or.inr ⟨before, a, rest, rfl, hbefore, hstop, ?_⟩
        rw [findPair, if_pos hstop, hprev (List.cons_ne_nil a rest)]
      · have hpassed : ∀ b ∈ before ++ [a], stop b = false := by
          intro b hb
          rcases List.mem_append.mp hb with hb | hb
          · exact hbefore b hb
          · rw [List.mem_singleton.mp hb]
            exact Bool.not_eq_true _ ▸ hstop
        have hstep : h.findPair stop (n + 1) prev (some a) =
            h.findPair stop n (some a) (h.next a) := by
          rw [findPair, if_neg hstop]
        rw [List.append_cons, hstep]
        refine ih (n := n) (before ++ [a]) hpassed (fun _ => ?_) hrest (by omega)
        rw [trailing, List.getLast?_concat, Option.some_or]

theorem lastFrom_spec {first : Nat} {n : Nat}
    (hlist : Segment h.next (some first) (before ++ [a]) none)
    (hn : before.length < n) : h.lastFrom n first = some a := by
  induction before generalizing first n with
  | nil =>
      obtain ⟨n, rfl⟩ : ∃ k, n = k + 1 := ⟨n - 1, by simp at hn; omega⟩
      obtain ⟨hfirst, hnext⟩ := hlist
      rw [Option.some.inj hfirst, lastFrom, show h.next a = none from hnext]
  | cons b rest ih =>
      obtain ⟨n, rfl⟩ : ∃ k, n = k + 1 := ⟨n - 1, by simp at hn; omega⟩
      obtain ⟨hfirst, hrest⟩ := hlist
      rw [List.length_cons] at hn
      obtain ⟨c, hnext⟩ : ∃ c, h.next b = some c := by
        cases rest with
        | nil => exact ⟨a, hrest.1⟩
        | cons c rest => exact ⟨c, hrest.1⟩
      rw [hnext] at hrest
      rw [Option.some.inj hfirst, lastFrom, hnext]
      exact ih hrest (by omega)

theorem putLast_spec (hlist : Segment h.next head nodes none)
    (hsize : ∀ b ∈ nodes, b < h.size) (hnew : a ∉ nodes) (hnext : h.next a = none) :
    ∃ h' head', h.putLast head a = some (h', head') ∧
      Segment h'.next head' (nodes ++ [a]) none ∧ h'.data = h.data ∧
      h'.size = h.size ∧ ∀ b ∉ nodes, h'.next b = h.next b := by
  rcases List.eq_nil_or_concat' nodes with rfl | ⟨before, last, rfl⟩
  · rw [show head = none from hlist]
    exact ⟨h, some a, rfl, ⟨rfl, hnext⟩, rfl, rfl, fun _ _ => rfl⟩
  · obtain ⟨first, rfl⟩ : ∃ first, head = some first := by
      cases before with
      | nil => exact ⟨last, hlist.1⟩
      | cons b rest => exact ⟨b, hlist.1⟩
    have hlength := hlist.length_le hsize
    rw [List.length_append, List.length_singleton] at hlength
    have hlast : h.lastFrom (h.size + 1) first = some last :=
      lastFrom_spec hlist (by omega)
    have hnot : last ∉ before := by
      intro hmem
      exact (List.disjoint_of_nodup_append hlist.nodup) hmem List.mem_cons_self
    have hne : a ≠ last := by
      rintro rfl
      exact hnew (by simp)
    refine ⟨h.setNext last (some a), some first, ?_, ?_, rfl, rfl, fun b hb => ?_⟩
    · rw [putLast, hlast, Option.map_some]
    · rw [segment_concat] at hlist
      rw [segment_concat, segment_concat]
      refine ⟨⟨hlist.1.update hnot, Function.update_self _ _ _⟩, ?_⟩
      rw [setNext_next, Function.update_of_ne hne, hnext]
    · refine Function.update_of_ne ?_ _ _
      rintro rfl
      exact hb (by simp)

theorem unlink_spec (hlist : Segment h.next head (before ++ a :: after) none) :
    ∃ h' head', h.unlink head (trailing head before) (some a) = some (h', head') ∧
      Segment h'.next head' (before ++ after) none ∧ h'.next a = none ∧
      h'.data = h.data ∧ h'.size = h.size ∧
      ∀ b ∉ before ++ a :: after, h'.next b = h.next b := by
  have hnodup := hlist.nodup
  have hafter : a ∉ after := by
    rw [List.nodup_append, List.nodup_cons] at hnodup
    exact hnodup.2.1.1
  have hbefore : a ∉ before := fun hmem =>
    (List.disjoint_of_nodup_append hnodup) hmem List.mem_cons_self
  rcases List.eq_nil_or_concat' before with rfl | ⟨init, last, rfl⟩
  · obtain ⟨rfl, hrest⟩ := hlist
    refine ⟨h.setNext a none, h.next a, ?_, hrest.update hafter,
      Function.update_self _ _ _, rfl, rfl, fun b hb => Function.update_of_ne ?_ _ _⟩
    · simp [unlink, trailing]
    · rintro rfl
      exact hb List.mem_cons_self
  · obtain ⟨hprev, hne⟩ : trailing head (init ++ [last]) = some last ∧
        some last ≠ some a := by
      rw [trailing, List.getLast?_concat, Option.some_or]
      refine ⟨rfl, fun heq => hbefore ?_⟩
      rw [Option.some.inj heq]
      simp
    obtain ⟨mid, hinit, hmid⟩ := segment_append.mp hlist
    obtain ⟨rfl, hrest⟩ := hmid
    rw [segment_concat] at hinit
    rw [List.append_assoc, List.nodup_append] at hnodup
    have hlast : last ∉ init ∧ last ∉ after := by
      refine ⟨fun hmem => hnodup.2.2 last hmem last (by simp) rfl, fun hmem => ?_⟩
      have hcons := (List.nodup_cons.mp hnodup.2.1).1
      exact hcons (List.mem_cons_of_mem a hmem)
    refine ⟨(h.setNext last (h.next a)).setNext a none, head, ?_, ?_,
      Function.update_self _ _ _, rfl, rfl, fun b hb => ?_⟩
    · simp only [unlink, hprev, if_neg hne, Option.bind_some, Option.map_some]
    · rw [segment_append]
      refine ⟨h.next a, ?_, (hrest.update hlast.2).update hafter⟩
      refine Segment.update hbefore (segment_concat.mpr ⟨hinit.1.update hlast.1, ?_⟩)
      exact Function.update_self _ _ _
    · have hb : b ≠ a ∧ b ≠ last := by
        refine ⟨?_, ?_⟩ <;> rintro rfl <;> exact hb (by simp)
      rw [setNext_next, Function.update_of_ne hb.1, setNext_next,
        Function.update_of_ne hb.2]

theorem mapFrom_spec (f : α → α) {n : Nat} (hlist : Segment h.next p nodes none)
    (hn : nodes.length < n) :
    ∃ h', h.mapFrom f n p = some h' ∧ h'.next = h.next ∧ h'.size = h.size ∧
      (∀ b ∈ nodes, h'.data b = f (h.data b)) ∧
      ∀ b ∉ nodes, h'.data b = h.data b := by
  induction nodes generalizing h p n with
  | nil =>
      obtain ⟨n, rfl⟩ : ∃ k, n = k + 1 := ⟨n - 1, by simp at hn; omega⟩
      rw [show p = none from hlist]
      exact ⟨h, rfl, rfl, rfl, fun b hb => absurd hb List.not_mem_nil, fun _ _ => rfl⟩
  | cons a rest ih =>
      obtain ⟨n, rfl⟩ : ∃ k, n = k + 1 := ⟨n - 1, by simp at hn; omega⟩
      have hnot := (List.nodup_cons.mp hlist.nodup).1
      obtain ⟨rfl, hrest⟩ := hlist
      rw [List.length_cons] at hn
      obtain ⟨h', hrun, hnext, hsize, hmem, hother⟩ :=
        @ih (h.setData a (f (h.data a))) (h.next a) n hrest (by omega)
      refine ⟨h', hrun, hnext, hsize, fun b hb => ?_, fun b hb => ?_⟩
      · rcases List.mem_cons.mp hb with rfl | hb
        · rw [hother b hnot, setData_data, Function.update_self]
        · have hne : b ≠ a := fun heq => hnot (heq ▸ hb)
          rw [hmem b hb, setData_data, Function.update_of_ne hne]
      · rw [hother b (List.not_mem_of_not_mem_cons hb), setData_data,
          Function.update_of_ne (List.ne_of_not_mem_cons hb)]

end NodeHeap

end PintosLabs
