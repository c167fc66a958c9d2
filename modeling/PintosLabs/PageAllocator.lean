/-
The page allocator (threads/palloc.c): two pools of pages, for the kernel and for
user processes, each with a bitmap of the pages in use.  A call that fails an
assertion has no result; the null pointer is address zero.
-/
import Mathlib.Data.List.Pairwise
import PintosLabs.ArgumentPassing
import PintosLabs.Bitmaps
import PintosLabs.ByteMemory

namespace PintosLabs

open Exec (pgsize physBase)

/-- `pg_ofs` -/
def pgOfs (va : Nat) : Nat := va % pgsize

/-- `pg_no` -/
def pgNo (va : Nat) : Nat := va / pgsize

namespace Palloc

/-- `enum palloc_flags`, one bit each. -/
structure Flags where
  assert : Bool
  zero : Bool
  user : Bool

def noFlags : Flags := ⟨false, false, false⟩

/-- `struct pool`, but for its lock. -/
structure Pool where
  usedMap : Bitmap
  base : Nat

structure State where
  kernelPool : Pool
  userPool : Pool
  memory : ByteMemory

namespace State

def pool (s : State) (user : Bool) : Pool := if user then s.userPool else s.kernelPool

def setUsedMap (s : State) (user : Bool) (usedMap : Bitmap) : State :=
  if user then { s with userPool := { s.userPool with usedMap := usedMap } }
  else { s with kernelPool := { s.kernelPool with usedMap := usedMap } }

def setMemory (s : State) (memory : ByteMemory) : State := { s with memory := memory }

end State

def pallocGetMultiple (flags : Flags) (pageCnt : Nat) (s : State) : Option (Nat × State) :=
  if pageCnt = 0 then some (0, s)
  else do
    let (pageIdx, usedMap) ←
      (s.pool flags.user).usedMap.bitmapScanAndFlip 0 pageCnt false
    let s := s.setUsedMap flags.user usedMap
    match pageIdx with
    | some idx =>
        let pages := (s.pool flags.user).base + pgsize * idx
        some (pages,
          if flags.zero then s.setMemory (s.memory.fill pages (pgsize * pageCnt) 0) else s)
    | none => if flags.assert then none else some (0, s)

def pallocGetPage (flags : Flags) (s : State) : Option (Nat × State) :=
  pallocGetMultiple flags 1 s

def pageFromPool (pool : Pool) (page : Nat) : Bool :=
  decide (pgNo pool.base ≤ pgNo page ∧ pgNo page < pgNo pool.base + pool.usedMap.bitCnt)

/-- The pool that `palloc_free_multiple` finds the page in. -/
def poolOf (s : State) (page : Nat) : Option Bool :=
  if pageFromPool s.kernelPool page then some false
  else if pageFromPool s.userPool page then some true
  else none

def pallocFreeMultiple (pages pageCnt : Nat) (s : State) : Option State :=
  if pgOfs pages = 0 then
    if pages = 0 ∨ pageCnt = 0 then some s
    else do
      let user ← poolOf s pages
      let pageIdx := pgNo pages - pgNo (s.pool user).base
      let s := s.setMemory (s.memory.fill pages (pgsize * pageCnt) 0xcc)
      let all ← (s.pool user).usedMap.bitmapAll pageIdx pageCnt
      if all then do
        let usedMap ← (s.pool user).usedMap.bitmapSetMultiple pageIdx pageCnt false
        some (s.setUsedMap user usedMap)
      else none
  else none

def pallocFreePage (page : Nat) (s : State) : Option State := pallocFreeMultiple page 1 s

/-- `init_pool`: the bitmap lies in the first pages of the pool. -/
def initPool (memory : ByteMemory) (base pageCnt : Nat) : Option Pool := do
  let bmPages := (Bitmap.bitmapBufSize pageCnt + pgsize - 1) / pgsize
  if bmPages ≤ pageCnt then
    let usedMap ← Bitmap.bitmapCreateInBuf (pageCnt - bmPages)
      (fun k => memory.loadWord (base + 8 + 4 * k)) (bmPages * pgsize)
    some ⟨usedMap, base + bmPages * pgsize⟩
  else none

/-- `palloc_init`, where free memory starts at one megabyte. -/
def pallocInit (userPageLimit initRamPages : Nat) (memory : ByteMemory) : Option State := do
  let freeStart := physBase + 1024 * 1024
  let freeEnd := physBase + initRamPages * pgsize
  let freePages := (freeEnd - freeStart) / pgsize
  let userPages := min (freePages / 2) userPageLimit
  let kernelPages := freePages - userPages
  let kernelPool ← initPool memory freeStart kernelPages
  let userPool ← initPool memory (freeStart + kernelPages * pgsize) userPages
  some ⟨kernelPool, userPool, memory⟩

/-! The pages in use. -/

/-- Where the pages of a pool begin. -/
def Pool.start (pool : Pool) : Nat := pgNo pool.base

def Pool.stop (pool : Pool) : Nat := pgNo pool.base + pool.usedMap.bitCnt

def Pool.Contains (pool : Pool) (page : Nat) : Prop := pool.start ≤ page ∧ page < pool.stop

instance (pool : Pool) (page : Nat) : Decidable (pool.Contains page) := by
  unfold Pool.Contains
  infer_instance

/-- Whether the page with this number is in use. -/
def Pool.Used (pool : Pool) (page : Nat) : Prop :=
  pool.Contains page ∧ pool.usedMap.bit (page - pool.start) = true

def State.Used (s : State) (page : Nat) : Prop := ∃ user, (s.pool user).Used page

/-- The pools are made of whole pages, and lie one behind the other. -/
structure State.Wf (s : State) : Prop where
  aligned : ∀ user, pgOfs (s.pool user).base = 0
  positive : 0 < s.kernelPool.start
  apart : s.kernelPool.stop ≤ s.userPool.start

/-- Pages one behind the other that have been handed out together. -/
structure Chunk where
  page : Nat
  cnt : Nat
  user : Bool
deriving DecidableEq

namespace Chunk

def Has (c : Chunk) (page : Nat) : Prop := c.page ≤ page ∧ page < c.page + c.cnt

instance (c : Chunk) (page : Nat) : Decidable (c.Has page) := by
  unfold Has
  infer_instance

def Apart (c d : Chunk) : Prop := c.page + c.cnt ≤ d.page ∨ d.page + d.cnt ≤ c.page

/-- Where the chunk starts in memory. -/
def address (c : Chunk) : Nat := c.page * pgsize

/-- The chunk lies inside of its pool. -/
def Inside (c : Chunk) (s : State) : Prop :=
  0 < c.cnt ∧ (s.pool c.user).start ≤ c.page ∧ c.page + c.cnt ≤ (s.pool c.user).stop

end Chunk

/-- The chunks that are held are apart from each other, and they are the pages in
use. -/
structure State.Exact (s : State) (held : List Chunk) : Prop where
  wf : s.Wf
  inside : ∀ c ∈ held, c.Inside s
  apart : held.Pairwise Chunk.Apart
  used_iff : ∀ page, s.Used page ↔ ∃ c ∈ held, c.Has page

/-- Chunks that are apart have no address in common. -/
theorem apart_addresses {c c' : Chunk} (happart : c.Apart c') :
    c.address + pgsize * c.cnt ≤ c'.address ∨ c'.address + pgsize * c'.cnt ≤ c.address := by
  simp only [Chunk.Apart, Chunk.address, pgsize] at *
  omega

namespace State

variable {s s' : State} {user : Bool} {usedMap : Bitmap}

@[simp] theorem pool_setMemory (memory : ByteMemory) : (s.setMemory memory).pool = s.pool := rfl

@[simp] theorem memory_setMemory (memory : ByteMemory) : (s.setMemory memory).memory = memory :=
  rfl

theorem pool_setUsedMap_self :
    (s.setUsedMap user usedMap).pool user = { s.pool user with usedMap := usedMap } := by
  cases user <;> rfl

theorem pool_setUsedMap_other {other : Bool} (hne : other ≠ user) :
    (s.setUsedMap user usedMap).pool other = s.pool other := by
  cases user <;> cases other <;> first | rfl | exact absurd rfl hne

@[simp] theorem memory_setUsedMap : (s.setUsedMap user usedMap).memory = s.memory := by
  cases user <;> rfl

/-- The pools are where they were. -/
def SameShape (s s' : State) : Prop :=
  ∀ user, (s'.pool user).start = (s.pool user).start ∧
    (s'.pool user).stop = (s.pool user).stop ∧ (s'.pool user).base = (s.pool user).base

theorem SameShape.wf (h : s.SameShape s') (hwf : s.Wf) : s'.Wf where
  aligned user := by
    rw [(h user).2.2]
    exact hwf.aligned user
  positive := (h false).1 ▸ hwf.positive
  apart := (h false).2.1 ▸ (h true).1 ▸ hwf.apart

theorem SameShape.inside {c : Chunk} (h : s.SameShape s') (hc : c.Inside s) : c.Inside s' := by
  obtain ⟨hstart, hstop, _⟩ := h c.user
  exact ⟨hc.1, hstart ▸ hc.2.1, hstop ▸ hc.2.2⟩

theorem SameShape.setUsedMap (hcnt : usedMap.bitCnt = (s.pool user).usedMap.bitCnt) :
    s.SameShape (s.setUsedMap user usedMap) := by
  intro other
  by_cases hother : other = user
  · subst hother
    rw [pool_setUsedMap_self]
    exact ⟨rfl, congrArg (pgNo (s.pool other).base + ·) hcnt, rfl⟩
  · rw [pool_setUsedMap_other hother]
    exact ⟨rfl, rfl, rfl⟩

/-- A page is in at most one of the pools. -/
theorem Wf.pool_unique (hwf : s.Wf) {user other : Bool} {page : Nat}
    (h : (s.pool user).Contains page) (h' : (s.pool other).Contains page) : user = other := by
  have happart := hwf.apart
  have hpositive := hwf.positive
  simp only [Pool.Contains] at h h'
  cases user <;> cases other
  · rfl
  · simp only [pool, if_true, Bool.false_eq_true, if_false] at h h'
    omega
  · simp only [pool, if_true, Bool.false_eq_true, if_false] at h h'
    omega
  · rfl

theorem Wf.pages_pos (hwf : s.Wf) {page : Nat} (h : (s.pool user).Contains page) : 0 < page := by
  have happart := hwf.apart
  have hpositive := hwf.positive
  simp only [Pool.Contains, Pool.stop, Pool.start] at *
  cases user <;> simp only [pool, if_true, Bool.false_eq_true, if_false] at h <;> omega

theorem Wf.base_eq (hwf : s.Wf) (user : Bool) :
    (s.pool user).base = (s.pool user).start * pgsize := by
  have haligned := hwf.aligned user
  rw [Pool.start, pgNo]
  exact (Nat.div_mul_cancel (Nat.dvd_of_mod_eq_zero haligned)).symm

/-- Changing the bits of a range changes which of its pages are in use. -/
theorem used_setUsedMap {c : Chunk} {value : Bool} (hwf : s.Wf) (hc : c.Inside s)
    (hcnt : usedMap.bitCnt = (s.pool c.user).usedMap.bitCnt)
    (hbit : ∀ j < (s.pool c.user).usedMap.bitCnt, usedMap.bit j =
      if c.page - (s.pool c.user).start ≤ j ∧
        j < c.page - (s.pool c.user).start + c.cnt then value
      else (s.pool c.user).usedMap.bit j) (page : Nat) :
    (s.setUsedMap c.user usedMap).Used page ↔
      if c.Has page then value = true else s.Used page := by
  obtain ⟨hpos, hlow, hhigh⟩ := hc
  have hstop : (s.pool c.user).stop =
      (s.pool c.user).start + (s.pool c.user).usedMap.bitCnt := rfl
  have hother : ∀ other, other ≠ c.user →
      (((s.setUsedMap c.user usedMap).pool other).Used page ↔ (s.pool other).Used page) := by
    intro other hne
    rw [pool_setUsedMap_other hne]
  have hself : ((s.setUsedMap c.user usedMap).pool c.user).Used page ↔
      (s.pool c.user).Contains page ∧ usedMap.bit (page - (s.pool c.user).start) = true := by
    rw [pool_setUsedMap_self, Pool.Used, Pool.Contains, Pool.Contains, hstop]
    simp only [Pool.start, Pool.stop, hcnt]
  split
  case isTrue hhas =>
    have hcontains : (s.pool c.user).Contains page := by
      simp only [Chunk.Has, Pool.Contains] at *
      omega
    have hvalue : usedMap.bit (page - (s.pool c.user).start) = value := by
      simp only [Chunk.Has, Pool.Contains] at hhas hcontains
      rw [hbit _ (by omega), if_pos (by omega)]
    constructor
    · rintro ⟨other, hused⟩
      by_cases hne : other = c.user
      · subst hne
        rw [← hvalue]
        exact (hself.mp hused).2
      · exact absurd (hwf.pool_unique ((hother other hne).mp hused).1 hcontains) hne
    · intro htrue
      exact ⟨c.user, hself.mpr ⟨hcontains, hvalue.trans htrue⟩⟩
  case isFalse hhas =>
    have hkept : ((s.setUsedMap c.user usedMap).pool c.user).Used page ↔
        (s.pool c.user).Used page := by
      rw [hself, Pool.Used]
      refine and_congr_right fun hcontains => ?_
      simp only [Chunk.Has, Pool.Contains] at hhas hcontains
      rw [hbit _ (by omega), if_neg (by omega)]
    refine exists_congr fun other => ?_
    by_cases hne : other = c.user
    · subst hne
      exact hkept
    · exact hother other hne

end State

namespace State.Exact

variable {s s' : State} {held held' : List Chunk} {c : Chunk}

theorem perm (h : s.Exact held) (hperm : held.Perm held') : s.Exact held' where
  wf := h.wf
  inside c hc := h.inside c (hperm.mem_iff.mpr hc)
  apart := hperm.pairwise h.apart fun hcd => Or.symm hcd
  used_iff page := by
    rw [h.used_iff]
    exact exists_congr fun c => and_congr_left fun _ => hperm.mem_iff

theorem setMemory (h : s.Exact held) (memory : ByteMemory) : (s.setMemory memory).Exact held where
  wf := ⟨h.wf.aligned, h.wf.positive, h.wf.apart⟩
  inside := h.inside
  apart := h.apart
  used_iff := h.used_iff

theorem nodup (h : s.Exact held) : held.Nodup := by
  refine h.apart.imp_of_mem fun {c d} hc hd happart heq => ?_
  subst heq
  have hpos := (h.inside c hc).1
  simp only [Chunk.Apart] at happart
  omega

instance : Std.Symm Chunk.Apart := ⟨fun _ _ happart => Or.symm happart⟩

theorem apart_of_ne (h : s.Exact held) {d : Chunk} (hc : c ∈ held) (hd : d ∈ held)
    (hne : c ≠ d) : c.Apart d :=
  h.apart.forall hc hd hne

theorem pos_of_mem (h : s.Exact held) (hc : c ∈ held) : 0 < c.page :=
  h.wf.pages_pos ⟨(h.inside c hc).2.1, by
    have hin := h.inside c hc
    simp only [Chunk.Inside] at hin
    omega⟩

/-- Taking pages that are not in use. -/
theorem take (h : s.Exact held) (hc : c.Inside s) (hfree : ∀ page, c.Has page → ¬s.Used page)
    {usedMap : Bitmap} (hcnt : usedMap.bitCnt = (s.pool c.user).usedMap.bitCnt)
    (hbit : ∀ j < (s.pool c.user).usedMap.bitCnt, usedMap.bit j =
      if c.page - (s.pool c.user).start ≤ j ∧
        j < c.page - (s.pool c.user).start + c.cnt then true
      else (s.pool c.user).usedMap.bit j) :
    (s.setUsedMap c.user usedMap).Exact (c :: held) := by
  have hshape := SameShape.setUsedMap hcnt
  refine ⟨hshape.wf h.wf, ?_, ?_, fun page => ?_⟩
  · intro d hd
    rcases List.mem_cons.mp hd with rfl | hd
    · exact hshape.inside hc
    · exact hshape.inside (h.inside d hd)
  · refine List.pairwise_cons.mpr ⟨fun d hd => ?_, h.apart⟩
    have hin := h.inside d hd
    by_contra hmeet
    simp only [Chunk.Apart, not_or, not_le] at hmeet
    have hboth : c.Has (max c.page d.page) ∧ d.Has (max c.page d.page) := by
      have hcpos := hc.1
      have hdpos := hin.1
      simp only [Chunk.Has]
      omega
    exact hfree _ hboth.1 ((h.used_iff _).mpr ⟨d, hd, hboth.2⟩)
  · rw [used_setUsedMap h.wf hc hcnt hbit]
    split
    case isTrue hhas => exact ⟨fun _ => ⟨c, List.mem_cons_self, hhas⟩, fun _ => rfl⟩
    case isFalse hhas =>
      rw [h.used_iff]
      constructor
      · rintro ⟨d, hd, hpage⟩
        exact ⟨d, List.mem_cons_of_mem c hd, hpage⟩
      · rintro ⟨d, hd, hpage⟩
        rcases List.mem_cons.mp hd with rfl | hd
        · exact absurd hpage hhas
        · exact ⟨d, hd, hpage⟩

/-- Giving a chunk back. -/
theorem give (h : s.Exact (c :: held)) {usedMap : Bitmap}
    (hcnt : usedMap.bitCnt = (s.pool c.user).usedMap.bitCnt)
    (hbit : ∀ j < (s.pool c.user).usedMap.bitCnt, usedMap.bit j =
      if c.page - (s.pool c.user).start ≤ j ∧
        j < c.page - (s.pool c.user).start + c.cnt then false
      else (s.pool c.user).usedMap.bit j) :
    (s.setUsedMap c.user usedMap).Exact held := by
  have hshape := SameShape.setUsedMap hcnt
  have hc := h.inside c List.mem_cons_self
  obtain ⟨hcapart, happart⟩ := List.pairwise_cons.mp h.apart
  refine ⟨hshape.wf h.wf, fun d hd => hshape.inside (h.inside d (List.mem_cons_of_mem c hd)),
    happart, fun page => ?_⟩
  rw [used_setUsedMap h.wf hc hcnt hbit]
  split
  case isTrue hhas =>
    refine ⟨fun hfalse => absurd hfalse Bool.false_ne_true, ?_⟩
    rintro ⟨d, hd, hpage⟩
    have hcd := hcapart d hd
    simp only [Chunk.Apart, Chunk.Has] at hcd hhas hpage
    omega
  case isFalse hhas =>
    rw [h.used_iff]
    constructor
    · rintro ⟨d, hd, hpage⟩
      rcases List.mem_cons.mp hd with rfl | hd
      · exact absurd hpage hhas
      · exact ⟨d, hd, hpage⟩
    · rintro ⟨d, hd, hpage⟩
      exact ⟨d, List.mem_cons_of_mem c hd, hpage⟩

end State.Exact

/-- What `palloc_get_multiple` does when it finds pages. -/
structure Got (flags : Flags) (pageCnt : Nat) (held : List Chunk) (s : State) (pages : Nat)
    (s' : State) (page : Nat) : Prop where
  address : pages = page * pgsize
  positive : 0 < page
  exact : s'.Exact (⟨page, pageCnt, flags.user⟩ :: held)
  shape : s.SameShape s'
  memory : s'.memory =
    if flags.zero then s.memory.fill pages (pgsize * pageCnt) 0 else s.memory

/-- There are no `pageCnt` pages in the pool, one behind the other, that are free. -/
def State.Full (s : State) (user : Bool) (pageCnt : Nat) : Prop :=
  ∀ c : Chunk, c.user = user → c.cnt = pageCnt → c.Inside s → ∃ page, c.Has page ∧ s.Used page

theorem State.setUsedMap_self (s : State) (user : Bool) :
    s.setUsedMap user (s.pool user).usedMap = s := by
  cases user <;> rfl

theorem pallocGetMultiple_cases {s : State} {held : List Chunk} (h : s.Exact held)
    (flags : Flags) (pageCnt : Nat) :
    (∃ pages s' page, pallocGetMultiple flags pageCnt s = some (pages, s') ∧
      Got flags pageCnt held s pages s' page) ∨
    ((pageCnt = 0 ∨ s.Full flags.user pageCnt) ∧
      pallocGetMultiple flags pageCnt s =
        if pageCnt ≠ 0 ∧ flags.assert = true then none else some (0, s)) := by
  rw [pallocGetMultiple]
  split
  case isTrue hzero =>
    exact Or.inr ⟨Or.inl hzero, by rw [if_neg fun hne => hne.1 hzero]⟩
  case isFalse hpos =>
    have hstop : (s.pool flags.user).stop =
        (s.pool flags.user).start + (s.pool flags.user).usedMap.bitCnt := rfl
    rcases (s.pool flags.user).usedMap.scanAndFlip_cases pageCnt false with
      ⟨i, usedMap, hflip, hfits, hclear, hcnt, hbit⟩ | ⟨hflip, hnone⟩
    · refine Or.inl ⟨_, _, (s.pool flags.user).start + i, by rw [hflip]; rfl, ?_⟩
      have hc : Chunk.Inside ⟨(s.pool flags.user).start + i, pageCnt, flags.user⟩ s :=
        ⟨Nat.pos_of_ne_zero hpos, Nat.le_add_right _ _, by
          change (s.pool flags.user).start + i + pageCnt ≤ (s.pool flags.user).stop
          omega⟩
      have hexact : (s.setUsedMap flags.user usedMap).Exact
          (⟨(s.pool flags.user).start + i, pageCnt, flags.user⟩ :: held) := by
        apply h.take hc
        · rintro page hhas ⟨other, hcontains, hused⟩
          have hin : (s.pool flags.user).Contains page := by
            simp only [Chunk.Has, Pool.Contains, Chunk.Inside] at *
            omega
          obtain rfl := h.wf.pool_unique hcontains hin
          simp only [Chunk.Has] at hhas
          rw [hclear _ (by omega) (by omega)] at hused
          cases hused
        · exact hcnt
        · intro j hj
          rw [hbit j hj, Nat.add_sub_cancel_left]
          rfl
      have hbase : ((s.setUsedMap flags.user usedMap).pool flags.user).base =
          (s.pool flags.user).start * pgsize := by
        rw [State.pool_setUsedMap_self]
        exact h.wf.base_eq flags.user
      refine ⟨?_, ?_, ?_, ?_, ?_⟩
      · rw [hbase, Nat.add_mul, Nat.mul_comm pgsize]
      · have hcontains : (s.pool flags.user).Contains ((s.pool flags.user).start + i) :=
          ⟨Nat.le_add_right _ _, by omega⟩
        exact h.wf.pages_pos hcontains
      · split
        · exact hexact.setMemory _
        · exact hexact
      · split
        · exact State.SameShape.setUsedMap hcnt
        · exact State.SameShape.setUsedMap hcnt
      · split
        · rw [State.memory_setMemory, State.memory_setUsedMap]
        · exact State.memory_setUsedMap
    · refine Or.inr ⟨Or.inr ?_, ?_⟩
      · rintro ⟨page, cnt, user⟩ rfl rfl ⟨_, hlow, hhigh⟩
        obtain ⟨j, hj, hj', hne⟩ := hnone (page - (s.pool flags.user).start) (by
          simp only at hlow hhigh ⊢
          omega)
        simp only at hlow hhigh hj hj'
        refine ⟨(s.pool flags.user).start + j, ⟨?_, ?_⟩, flags.user,
          ⟨Nat.le_add_right _ _, ?_⟩, ?_⟩
        · simp only
          omega
        · simp only
          omega
        · omega
        · rw [Nat.add_sub_cancel_left]
          exact Bool.eq_true_of_not_eq_false hne
      · rw [hflip]
        simp only [Option.bind_eq_bind, Option.bind_some, State.setUsedMap_self, hpos,
          ne_eq, not_false_eq_true, true_and]

theorem poolOf_eq {s : State} (hwf : s.Wf) {user : Bool} {page : Nat}
    (hpage : (s.pool user).Contains page) : poolOf s (page * pgsize) = some user := by
  have hno : pgNo (page * pgsize) = page := Nat.mul_div_cancel page (by decide)
  have hfrom : ∀ other, pageFromPool (s.pool other) (page * pgsize) =
      decide ((s.pool other).Contains page) := by
    intro other
    rw [pageFromPool, hno]
    rfl
  rw [poolOf, show s.kernelPool = s.pool false from rfl, show s.userPool = s.pool true from rfl,
    hfrom, hfrom]
  cases user with
  | false => rw [if_pos (decide_eq_true hpage)]
  | true =>
      rw [if_neg, if_pos (decide_eq_true hpage)]
      intro hkernel
      exact Bool.false_ne_true (hwf.pool_unique (of_decide_eq_true hkernel) hpage)

/-- A chunk that is held can be given back; its pages are filled with 0xcc. -/
theorem exists_pallocFreeMultiple {s : State} {c : Chunk} {held : List Chunk}
    (h : s.Exact (c :: held)) :
    ∃ s', pallocFreeMultiple c.address c.cnt s = some s' ∧ s'.Exact held ∧ s.SameShape s' ∧
      s'.memory = s.memory.fill c.address (pgsize * c.cnt) 0xcc := by
  have hc := h.inside c List.mem_cons_self
  have hpage : 0 < c.page := h.pos_of_mem List.mem_cons_self
  obtain ⟨hpos, hlow, hhigh⟩ := hc
  have hstop : (s.pool c.user).stop =
      (s.pool c.user).start + (s.pool c.user).usedMap.bitCnt := rfl
  have hno : pgNo c.address = c.page := Nat.mul_div_cancel c.page (by decide)
  have hofs : pgOfs c.address = 0 := Nat.mul_mod_left c.page pgsize
  have hfits : c.page - (s.pool c.user).start + c.cnt ≤ (s.pool c.user).usedMap.bitCnt := by omega
  have hall : (s.pool c.user).usedMap.bitmapAll (c.page - (s.pool c.user).start) c.cnt =
      some true := by
    apply Bitmap.bitmapAll_eq_true _ hfits
    intro j hj hj'
    obtain ⟨other, hcontains, hused⟩ := (h.used_iff ((s.pool c.user).start + j)).mpr
      ⟨c, List.mem_cons_self, by simp only [Chunk.Has]; omega⟩
    have hown : (s.pool c.user).Contains ((s.pool c.user).start + j) :=
      ⟨Nat.le_add_right _ _, by omega⟩
    obtain rfl := h.wf.pool_unique hcontains hown
    rwa [Nat.add_sub_cancel_left] at hused
  obtain ⟨usedMap, hset, hcnt, hbit⟩ :=
    (s.pool c.user).usedMap.exists_setMultiple false hfits
  refine ⟨(s.setMemory (s.memory.fill c.address (pgsize * c.cnt) 0xcc)).setUsedMap c.user usedMap,
    ?_, ?_, ?_, ?_⟩
  · have hne : ¬(c.address = 0 ∨ c.cnt = 0) := by
      rw [Chunk.address, pgsize]
      omega
    rw [pallocFreeMultiple, if_pos hofs, if_neg hne,
      show poolOf s c.address = some c.user from poolOf_eq h.wf ⟨hlow, by omega⟩]
    simp only [Option.bind_eq_bind, Option.bind_some, State.pool_setMemory, hno]
    rw [show pgNo (s.pool c.user).base = (s.pool c.user).start from rfl, hall]
    simp only [Option.bind_some, if_true, hset]
  · exact (h.setMemory _).give hcnt hbit
  · exact State.SameShape.setUsedMap hcnt
  · rw [State.memory_setUsedMap, State.memory_setMemory]

/-! The pools when the kernel has started. -/

theorem initPool_spec {memory : ByteMemory} {base pageCnt : Nat} {pool : Pool}
    (hinit : initPool memory base pageCnt = some pool) (hbase : pgOfs base = 0) :
    pgOfs pool.base = 0 ∧ pgNo base ≤ pool.start ∧ pool.stop = pgNo base + pageCnt ∧
      ∀ j < pool.usedMap.bitCnt, pool.usedMap.bit j = false := by
  rw [initPool] at hinit
  generalize hbm : (Bitmap.bitmapBufSize pageCnt + pgsize - 1) / pgsize = bmPages at hinit
  have hno : pgNo (base + bmPages * pgsize) = pgNo base + bmPages :=
    Nat.add_mul_div_right base bmPages (by decide)
  split at hinit
  case isFalse => cases hinit
  case isTrue hle =>
    obtain ⟨usedMap, hcreate, hpool⟩ := Option.bind_eq_some_iff.mp hinit
    obtain rfl := Option.some.inj hpool
    rw [Bitmap.bitmapCreateInBuf] at hcreate
    split at hcreate
    case isFalse => cases hcreate
    case isTrue =>
      rw [Bitmap.bitmapSetAll] at hcreate
      obtain ⟨b, hset, hcnt, hbit⟩ := Bitmap.exists_setMultiple _ false
        (Nat.le_of_eq (Nat.zero_add _))
      obtain rfl := Option.some.inj (hset.symm.trans hcreate)
      refine ⟨?_, ?_, ?_, fun j hj => ?_⟩
      · rw [pgOfs, Nat.add_mul_mod_self_right]
        exact hbase
      · change pgNo base ≤ pgNo (base + bmPages * pgsize)
        rw [hno]
        exact Nat.le_add_right _ _
      · change pgNo (base + bmPages * pgsize) + b.bitCnt = pgNo base + pageCnt
        rw [hno, hcnt]
        change pgNo base + bmPages + (pageCnt - bmPages) = pgNo base + pageCnt
        omega
      · change j < b.bitCnt at hj
        rw [hcnt] at hj
        change b.bit j = false
        rw [hbit j hj, if_pos (by omega)]

theorem exact_initPools {memory : ByteMemory} {freeStart kernelPages userPages : Nat}
    {kernelPool userPool : Pool} (hofs : pgOfs freeStart = 0) (hpositive : 0 < pgNo freeStart)
    (hkernel : initPool memory freeStart kernelPages = some kernelPool)
    (huser : initPool memory (freeStart + kernelPages * pgsize) userPages = some userPool) :
    State.Exact ⟨kernelPool, userPool, memory⟩ [] := by
  obtain ⟨hkofs, hkstart, hkstop, hkbits⟩ := initPool_spec hkernel hofs
  obtain ⟨huofs, hustart, hustop, hubits⟩ := initPool_spec huser (by
    rw [pgOfs, Nat.add_mul_mod_self_right]
    exact hofs)
  have hno : pgNo (freeStart + kernelPages * pgsize) = pgNo freeStart + kernelPages :=
    Nat.add_mul_div_right _ _ (by decide)
  refine ⟨⟨?_, Nat.lt_of_lt_of_le hpositive hkstart, ?_⟩, fun c hc => ?_, List.Pairwise.nil,
    fun page => ?_⟩
  · intro user
    cases user
    · exact hkofs
    · exact huofs
  · change kernelPool.stop ≤ userPool.start
    rw [hkstop, ← hno]
    exact hustart
  · cases hc
  · constructor
    · rintro ⟨user, ⟨hlow, hhigh⟩, hused⟩
      cases user
      · change page < kernelPool.start + kernelPool.usedMap.bitCnt at hhigh
        change kernelPool.start ≤ page at hlow
        change kernelPool.usedMap.bit (page - kernelPool.start) = true at hused
        rw [hkbits _ (by omega)] at hused
        cases hused
      · change page < userPool.start + userPool.usedMap.bitCnt at hhigh
        change userPool.start ≤ page at hlow
        change userPool.usedMap.bit (page - userPool.start) = true at hused
        rw [hubits _ (by omega)] at hused
        cases hused
    · rintro ⟨c, hc, _⟩
      cases hc

theorem exact_pallocInit {userPageLimit initRamPages : Nat} {memory : ByteMemory} {s : State}
    (hinit : pallocInit userPageLimit initRamPages memory = some s) : s.Exact [] := by
  have hofs : pgOfs (physBase + 1024 * 1024) = 0 := by decide
  have hpositive : 0 < pgNo (physBase + 1024 * 1024) := by decide
  obtain ⟨kernelPool, hkernel, hinit⟩ := Option.bind_eq_some_iff.mp hinit
  obtain ⟨userPool, huser, hinit⟩ := Option.bind_eq_some_iff.mp hinit
  exact Option.some.inj hinit ▸ exact_initPools hofs hpositive hkernel huser

end Palloc

end PintosLabs
