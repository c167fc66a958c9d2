/-
How a job reaches the scheduler of lab4: `enq` (enq.c) writes its arguments one
after another into the `data` of a command, each with a colon behind it, and
`do_enq` (scheduler.c) cuts that text into arguments again.
-/
import Mathlib.Data.List.Basic
import PintosLabs.CStrings

namespace PintosLabs

/-- What `do_enq` reads of `struct jobcmd` to build the arguments. -/
structure JobArgs where
  argnum : Nat
  data : Bytes

namespace JobArgs

/-- The length of `data`. -/
def buflen : Nat := 100

/-- `':'` -/
def colon : UInt8 := 58

/-- `":"` -/
def colonString : CString := ⟨[colon], by decide⟩

/-- The loop of `enq` over its arguments. -/
def fill (data : Bytes) (offset : Nat) : List CString → Option Bytes
  | [] => some data
  | arg :: argv => do
      let data ← strcpy data offset arg
      let data ← strcat data offset colonString
      fill data (offset + arg.length + 1) argv

/-- The command of `enq`; `data` is what lies on its stack. -/
def enq (data : Bytes) (argv : List CString) : Option JobArgs := do
  let data ← fill data 0 argv
  some ⟨argv.length, data⟩

/-- Where the loop of `do_enq` is; `i` is the length of `arglist`. -/
structure Scan where
  data : Bytes
  offset : Nat
  argvec : Nat
  arglist : List CString

/-- A copy of the string at `argvec`, in the `size` bytes of a `malloc`. -/
def copyArg (data : Bytes) (argvec size : Nat) : Option CString := do
  let arg ← readString data argvec
  if arg.length + 1 ≤ size then some arg else none

/-- One turn of the loop of `do_enq`. -/
def Scan.look (s : Scan) : Option Scan := do
  let byte ← s.data[s.offset]?
  if byte = colon then
    let data := s.data.set s.offset 0
    let offset := s.offset + 1
    let q ← copyArg data s.argvec (offset - s.argvec)
    some ⟨data, offset, offset, s.arglist ++ [q]⟩
  else some { s with offset := s.offset + 1 }

def Scan.loop (argnum : Nat) : Nat → Scan → Option Scan
  | 0, _ => none
  | fuel + 1, s =>
      if s.arglist.length < argnum then do
        let s ← s.look
        Scan.loop argnum fuel s
      else some s

/-- The `arglist` of `do_enq`, with the `NULL` at its end.  A turn takes one more
byte of `data`, so there are enough of them. -/
def doEnq (enqcmd : JobArgs) : Option (List (Option CString)) := do
  let s ← Scan.loop enqcmd.argnum (enqcmd.data.length + 1) ⟨enqcmd.data, 0, 0, []⟩
  some (s.arglist.map some ++ [none])

/-- Each argument with a colon behind it. -/
def encoded (argv : List CString) : Bytes :=
  argv.flatMap fun arg => arg.bytes ++ [colon]

/-- `do_enq` gets back what `enq` was given, also when no byte can be read behind
the encoded ones. -/
def RoundTrip (data : Bytes) (argv : List CString) : Prop :=
  ∃ enqcmd, enq data argv = some enqcmd ∧
    doEnq enqcmd = some (argv.map some ++ [none]) ∧
    doEnq { enqcmd with data := enqcmd.data.take (encoded argv).length } =
      doEnq enqcmd

variable {argv : List CString} {argnum fuel : Nat}

@[simp] theorem encoded_cons (arg : CString) (argv : List CString) :
    encoded (arg :: argv) = arg.bytes ++ colon :: encoded argv := by
  simp [encoded]

/-- Where there is room, the loop of `enq` leaves the encoded arguments. -/
theorem fill_eq {before room : Bytes} (hroom : (encoded argv).length + 1 ≤ room.length) :
    ∃ rest, fill (before ++ room) before.length argv =
      some (before ++ (encoded argv ++ rest)) := by
  induction argv generalizing before room with
  | nil => exact ⟨room, rfl⟩
  | cons arg argv ih =>
      have hlen : (encoded (arg :: argv)).length =
          arg.length + 1 + (encoded argv).length := by
        rw [encoded_cons, List.length_append, List.length_cons, CString.length]
        omega
      obtain ⟨text, old, after, rfl, htext, hold⟩ : ∃ text old after,
          room = text ++ (old ++ after) ∧ text.length = arg.length + 1 ∧
            old.length = colonString.length := by
        have hsplit : arg.length + 1 + 1 ≤ room.length := by omega
        exact exists_split hsplit
      have hcpy : strcpy (before ++ (text ++ (old ++ after))) before.length arg =
          some (before ++ (arg.stored ++ (old ++ after))) :=
        writeBytes_eq rfl (by rw [htext, CString.length_stored])
      have hcat : strcat (before ++ (arg.stored ++ (old ++ after))) before.length
          colonString = some (before ++ (arg.bytes ++ (colonString.stored ++ after))) :=
        strcat_eq rfl hold
      have hshift : before ++ (arg.bytes ++ (colonString.stored ++ after)) =
          (before ++ (arg.bytes ++ [colon])) ++ (0 :: after) := by
        simp [CString.stored, colonString]
      have hoffset : before.length + arg.length + 1 =
          (before ++ (arg.bytes ++ [colon])).length := by
        simp [CString.length]
        omega
      have hleft : (encoded argv).length + 1 ≤ (0 :: after).length := by
        rw [List.length_cons]
        simp only [List.length_append, htext, hold] at hroom
        change _ ≤ arg.length + 1 + (1 + after.length) at hroom
        omega
      obtain ⟨rest, hrest⟩ := @ih (before ++ (arg.bytes ++ [colon])) _ hleft
      refine ⟨rest, ?_⟩
      rw [fill, hcpy, Option.bind_eq_bind, Option.bind_some, hcat, Option.bind_some,
        hshift, hoffset, hrest]
      simp

theorem copyArg_eq {before rest : Bytes} {arg : CString} {size : Nat}
    (hsize : size = arg.length + 1) :
    copyArg (before ++ (arg.stored ++ rest)) before.length size = some arg := by
  rw [copyArg, readString_eq rfl, Option.bind_eq_bind, Option.bind_some,
    if_pos (by omega)]

/-- The loop of `do_enq` goes over a text in which there is no colon. -/
theorem loop_text {before text rest : Bytes} {argvec : Nat} {arglist : List CString}
    (hleft : arglist.length < argnum) (htext : colon ∉ text) :
    Scan.loop argnum (fuel + text.length)
        ⟨before ++ (text ++ rest), before.length, argvec, arglist⟩ =
      Scan.loop argnum fuel
        ⟨before ++ (text ++ rest), before.length + text.length, argvec, arglist⟩ := by
  induction text generalizing before with
  | nil => rfl
  | cons byte text ih =>
      have hbyte : byte ≠ colon := fun heq => htext (heq ▸ List.mem_cons_self)
      have hlook : Scan.look
          ⟨before ++ (byte :: text ++ rest), before.length, argvec, arglist⟩ =
          some ⟨before ++ (byte :: text ++ rest), before.length + 1, argvec,
            arglist⟩ := by
        simp [Scan.look, hbyte]
      have hshift : before ++ (byte :: text ++ rest) =
          (before ++ [byte]) ++ (text ++ rest) := by
        simp
      have hrest := @ih (before ++ [byte])
        (fun hmem => htext (List.mem_cons_of_mem _ hmem))
      rw [← hshift, List.length_append] at hrest
      rw [List.length_cons, ← Nat.add_assoc, Scan.loop, if_pos hleft, hlook,
        Option.bind_eq_bind, Option.bind_some]
      refine hrest.trans ?_
      rw [List.length_singleton, Nat.add_assoc, Nat.add_comm 1]

/-- At a colon one more argument is there. -/
theorem look_colon {before rest : Bytes} {arg : CString} {arglist : List CString} :
    Scan.look ⟨before ++ (arg.bytes ++ colon :: rest), before.length + arg.length,
        before.length, arglist⟩ =
      some ⟨(before ++ arg.stored) ++ rest, (before ++ arg.stored).length,
        (before ++ arg.stored).length, arglist ++ [arg]⟩ := by
  have hlen : before.length + arg.length = (before ++ arg.bytes).length :=
    List.length_append.symm
  have hdata : (before ++ (arg.bytes ++ colon :: rest)).set
      (before.length + arg.length) 0 = before ++ (arg.stored ++ rest) := by
    rw [hlen, ← List.append_assoc, List.set_append_right _ _ (Nat.le_refl _),
      Nat.sub_self]
    simp [CString.stored]
  have hbyte : (before ++ (arg.bytes ++ colon :: rest))[before.length + arg.length]? =
      some colon := by
    rw [hlen, ← List.append_assoc, List.getElem?_append_right (Nat.le_refl _),
      Nat.sub_self]
    rfl
  have hoffset : before.length + arg.length + 1 = (before ++ arg.stored).length := by
    rw [List.length_append, CString.length_stored, Nat.add_assoc]
  rw [Scan.look]
  simp only [hbyte, Option.bind_eq_bind, Option.bind_some, if_true, hdata]
  rw [copyArg_eq (by omega), Option.bind_some, hoffset, List.append_assoc]

/-- The loop of `do_enq` gets back arguments without a colon. -/
theorem loop_encoded {before rest : Bytes} {arglist : List CString}
    (hnum : argnum = arglist.length + argv.length)
    (hcolon : ∀ arg ∈ argv, colon ∉ arg.bytes) :
    ∃ s, Scan.loop argnum (fuel + 1 + (encoded argv).length)
        ⟨before ++ (encoded argv ++ rest), before.length, before.length, arglist⟩ =
          some s ∧ s.arglist = arglist ++ argv := by
  induction argv generalizing before arglist with
  | nil =>
      refine ⟨⟨before ++ rest, before.length, before.length, arglist⟩, ?_, by simp⟩
      rw [Scan.loop.eq_def]
      simp [encoded, hnum]
  | cons arg argv ih =>
      have hleft : arglist.length < argnum := by
        rw [hnum, List.length_cons]
        omega
      have hnum' : argnum = (arglist ++ [arg]).length + argv.length := by
        rw [hnum, List.length_append, List.length_cons, List.length_singleton]
        omega
      obtain ⟨s, hrun, hs⟩ := @ih (before ++ arg.stored) (arglist ++ [arg]) hnum'
        (fun b hb => hcolon b (List.mem_cons_of_mem _ hb))
      refine ⟨s, ?_, by rw [hs]; simp⟩
      have hfuel : fuel + 1 + (encoded (arg :: argv)).length =
          fuel + 1 + (encoded argv).length + 1 + arg.bytes.length := by
        rw [encoded_cons, List.length_append, List.length_cons]
        omega
      rw [hfuel, encoded_cons, List.append_assoc, List.cons_append,
        loop_text hleft (hcolon arg List.mem_cons_self), Scan.loop, if_pos hleft,
        ← CString.length, look_colon, Option.bind_eq_bind, Option.bind_some, hrun]

/-- No argument found so far has a colon in it, nor has the text after them. -/
structure Scan.NoColon (s : Scan) : Prop where
  arglist : ∀ arg ∈ s.arglist, colon ∉ arg.bytes
  text : ∃ before text rest, s.data = before ++ (text ++ rest) ∧
    s.argvec = before.length ∧ s.offset = before.length + text.length ∧ colon ∉ text

theorem mem_of_mem_takeWhile {text rest : Bytes} {b : UInt8}
    (hb : b ∈ (text ++ 0 :: rest).takeWhile (· ≠ 0)) : b ∈ text := by
  induction text with
  | nil => simp at hb
  | cons byte text ih =>
      rw [List.cons_append, List.takeWhile_cons] at hb
      split at hb
      · rcases List.mem_cons.mp hb with rfl | hb
        · exact List.mem_cons_self
        · exact List.mem_cons_of_mem _ (ih hb)
      · cases hb

theorem Scan.NoColon.look {s s' : Scan} (h : s.NoColon) (hs : s.look = some s') :
    s'.NoColon := by
  obtain ⟨data, offset, argvec, arglist⟩ := s
  obtain ⟨hlist, before, text, rest, rfl, rfl, rfl, htext⟩ := h
  have hlen : before.length + text.length = (before ++ text).length :=
    List.length_append.symm
  obtain ⟨byte, hbyte, hs⟩ := Option.bind_eq_some_iff.mp hs
  cases rest with
  | nil =>
      rw [hlen, List.append_nil, List.getElem?_eq_none (Nat.le_refl _)] at hbyte
      cases hbyte
  | cons first rest =>
      have hfirst : first = byte := by
        rw [hlen, ← List.append_assoc, List.getElem?_append_right (Nat.le_refl _),
          Nat.sub_self] at hbyte
        exact Option.some.inj hbyte
      subst hfirst
      split at hs
      · obtain ⟨q, hq, hs⟩ := Option.bind_eq_some_iff.mp hs
        cases hs
        have hset : (before ++ (text ++ first :: rest)).set
            (before.length + text.length) 0 = before ++ (text ++ 0 :: rest) := by
          rw [hlen, ← List.append_assoc, List.set_append_right _ _ (Nat.le_refl _),
            Nat.sub_self, List.append_assoc]
          rfl
        refine ⟨?_, before ++ (text ++ [0]), [], rest, ?_, ?_, ?_, List.not_mem_nil⟩
        · intro arg harg
          rcases List.mem_append.mp harg with harg | harg
          · exact hlist arg harg
          · rw [List.mem_singleton.mp harg]
            obtain ⟨arg, hread, hq⟩ := Option.bind_eq_some_iff.mp hq
            split at hq
            · cases hq
              rw [readString] at hread
              split at hread
              · cases hread
                intro hmem
                simp only [hset, List.drop_left] at hmem
                exact htext (mem_of_mem_takeWhile hmem)
              · cases hread
            · cases hq
        · simp only [hset]
          simp
        · simp
          omega
        · simp
          omega
      case isFalse hcolon =>
        cases hs
        refine ⟨hlist, before, text ++ [first], rest, by simp, rfl, by simp; omega, ?_⟩
        intro hmem
        rcases List.mem_append.mp hmem with hmem | hmem
        · exact htext hmem
        · exact hcolon (List.mem_singleton.mp hmem).symm

theorem Scan.NoColon.loop {s s' : Scan} (h : s.NoColon)
    (hs : Scan.loop argnum fuel s = some s') : s'.NoColon := by
  induction fuel generalizing s with
  | zero => cases hs
  | succ fuel ih =>
      rw [Scan.loop] at hs
      split at hs
      · obtain ⟨next, hnext, hs⟩ := Option.bind_eq_some_iff.mp hs
        exact ih (h.look hnext) hs
      · cases hs
        exact h

/-- `do_enq` never finds an argument with a colon in it. -/
theorem doEnq_noColon {enqcmd : JobArgs}
    (hargs : doEnq enqcmd = some (argv.map some ++ [none])) :
    ∀ arg ∈ argv, colon ∉ arg.bytes := by
  obtain ⟨s, hrun, hs⟩ := Option.bind_eq_some_iff.mp hargs
  have hsame : s.arglist.map some = argv.map some :=
    List.append_cancel_right (Option.some.inj hs)
  have hlist : s.arglist = argv :=
    List.map_injective_iff.mpr (fun _ _ heq => Option.some.inj heq) hsame
  have hstart : Scan.NoColon ⟨enqcmd.data, 0, 0, []⟩ :=
    ⟨by simp, [], [], enqcmd.data, rfl, rfl, rfl, List.not_mem_nil⟩
  rw [← hlist]
  exact (hstart.loop hrun).arglist

/-- Behind the encoded arguments there may be anything. -/
theorem doEnq_encoded (hcolon : ∀ arg ∈ argv, colon ∉ arg.bytes) (rest : Bytes) :
    doEnq ⟨argv.length, encoded argv ++ rest⟩ = some (argv.map some ++ [none]) := by
  obtain ⟨s, hrun, hs⟩ : ∃ s, Scan.loop argv.length
      (rest.length + 1 + (encoded argv).length) ⟨encoded argv ++ rest, 0, 0, []⟩ =
        some s ∧ s.arglist = argv :=
    @loop_encoded argv argv.length rest.length [] rest [] (by simp) hcolon
  have hfuel : (encoded argv ++ rest).length + 1 =
      rest.length + 1 + (encoded argv).length := by
    rw [List.length_append]
    omega
  rw [doEnq]
  simp only [hfuel]
  rw [hrun, Option.bind_eq_bind, Option.bind_some, hs]

/-- Arguments whose encoding fits come back exactly when there is no colon in
them. -/
theorem roundTrip_iff {data : Bytes} (hdata : data.length = buflen)
    (hfit : (encoded argv).length + 1 ≤ buflen) :
    RoundTrip data argv ↔ ∀ arg ∈ argv, colon ∉ arg.bytes := by
  constructor
  · rintro ⟨enqcmd, -, hargs, -⟩
    exact doEnq_noColon hargs
  · intro hcolon
    obtain ⟨rest, hfill⟩ := @fill_eq argv [] data (by rwa [hdata])
    have henq : enq data argv = some ⟨argv.length, encoded argv ++ rest⟩ :=
      Option.bind_eq_some_iff.mpr ⟨_, hfill, rfl⟩
    refine ⟨_, henq, doEnq_encoded hcolon rest, ?_⟩
    have hshort := doEnq_encoded hcolon []
    rw [List.append_nil] at hshort
    rw [List.take_left, hshort, doEnq_encoded hcolon rest]

namespace ArgsWitness

/-- `/bin/ls`, an empty argument and `-l`. -/
def listing : List CString :=
  [⟨[47, 98, 105, 110, 47, 108, 115], by decide⟩, ⟨[], by decide⟩,
    ⟨[45, 108], by decide⟩]

theorem roundTrip_listing : RoundTrip (List.replicate 100 7) listing :=
  (roundTrip_iff (by decide) (by decide)).mpr (by decide)

/-- `/bin/ls` and `a:b`. -/
def clock : List CString :=
  [⟨[47, 98, 105, 110, 47, 108, 115], by decide⟩, ⟨[97, 58, 98], by decide⟩]

/-- Of `a:b` the job gets `a` only. -/
theorem colon_cut : (List.replicate 100 7).length = buflen ∧ clock ≠ [] ∧
    (encoded clock).length + 1 ≤ buflen ∧
    (enq (List.replicate 100 7) clock).bind doEnq =
      some [some ⟨[47, 98, 105, 110, 47, 108, 115], by decide⟩,
        some ⟨[97], by decide⟩, none] ∧
    ¬ RoundTrip (List.replicate 100 7) clock := by
  have hargs : (enq (List.replicate 100 7) clock).bind doEnq =
      some [some ⟨[47, 98, 105, 110, 47, 108, 115], by decide⟩,
        some ⟨[97], by decide⟩, none] := by
    decide +kernel
  refine ⟨by decide, by decide, by decide, hargs, ?_⟩
  rintro ⟨enqcmd, henq, hback, -⟩
  rw [henq, Option.bind_some, hback] at hargs
  exact absurd hargs (by decide)

end ArgsWitness

end JobArgs
end PintosLabs
