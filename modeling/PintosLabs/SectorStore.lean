/-
Sector stores.  A store is read and written one sector at a time; reading may
change it (a cache may move sectors about), but never what it holds.
-/
import Mathlib.Algebra.Ring.Int.Defs
import Mathlib.Algebra.Ring.Nat
import Mathlib.Logic.Function.Basic

namespace PintosLabs

universe u v w

/-- A store `σ` of blocks `β` addressed by sectors `ι`, with the contents its
clients see. -/
class SectorStore (σ : Type u) (ι : outParam (Type v))
    (β : outParam (Type w)) [DecidableEq ι] where
  read : σ → ι → β × σ
  write : σ → ι → β → σ
  view : σ → ι → β
  read_fst : ∀ c s, (read c s).1 = view c s
  view_read : ∀ c s, view (read c s).2 = view c
  view_write : ∀ c s b, view (write c s b) = Function.update (view c) s b

namespace SectorStore

attribute [simp] read_fst view_read view_write

/-- The plain store: a function from sectors to blocks. -/
instance plain {ι : Type v} {β : Type w} [DecidableEq ι] :
    SectorStore (ι → β) ι β where
  read c s := (c s, c)
  write c s b := Function.update c s b
  view c := c
  read_fst _ _ := rfl
  view_read _ _ := rfl
  view_write _ _ _ := rfl

end SectorStore

/-! A store that keeps a log of the sectors written to it, so that writing a
sector is told apart from leaving it alone even where it holds the same. -/

structure Logged (σ : Type u) (ι : Type v) where
  store : σ
  /-- The last sector written comes first. -/
  written : List ι

namespace Logged

variable {σ : Type u} {ι : Type v} {β : Type w}

instance sectorStore [DecidableEq ι] [SectorStore σ ι β] :
    SectorStore (Logged σ ι) ι β where
  read c s :=
    ((SectorStore.read c.store s).1, ⟨(SectorStore.read c.store s).2, c.written⟩)
  write c s b := ⟨SectorStore.write c.store s b, s :: c.written⟩
  view c := SectorStore.view c.store
  read_fst c s := SectorStore.read_fst c.store s
  view_read c s := SectorStore.view_read c.store s
  view_write c s b := SectorStore.view_write c.store s b

/-- The sectors written on the way from one state to a later one. -/
def writtenSince (c c' : Logged σ ι) : List ι :=
  c'.written.take (c'.written.length - c.written.length)

theorem writtenSince_eq {c c' : Logged σ ι} {new : List ι}
    (hnew : c'.written = new ++ c.written) : writtenSince c c' = new := by
  rw [writtenSince, hnew, List.length_append, Nat.add_sub_cancel]
  exact List.take_left' rfl

end Logged

end PintosLabs
