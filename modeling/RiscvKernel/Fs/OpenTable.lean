import RiscvKernel.Fs.RoundTrip

/-!
# The open-file table over the life of the system

Calls of `fs_open` and `fs_close` one after another. `fs_open` looks for a slot whose
`io_intf` is null, and `fs_close` only clears `usage_flag`: a slot is used once. On its error
paths `fs_open` returns with `flk` held, and every later call waits for it forever.

* `openFile_known`, `openFile_unknown`, `openFile_blocked`: what one `fs_open` does.
* `open_file_table_iff`: in a run of calls every `fs_open` of an existing name succeeds if and
  only if there are at most 32 of them, and none comes after an `fs_open` of a name that does
  not exist.
-/

namespace RiscvKernel

open Lib

namespace Kfs

variable {β : Type}

/-! ## Calls -/

/-- The file system with the reference counts, and whether `flk` is held between calls. -/
structure FileSys (β : Type) where
  kfs : KfsState β
  refs : RefState
  held : Bool

/-- What `fs_open` writes for a new `io_intf`: the reference count, and the mark of its slot. -/
def RefState.opened (r : RefState) (mt : Mounted) (io : Nat) : RefState where
  refcnt := Function.update r.refcnt io 1
  inUse := match firstSlot mt io with
    | some i => Function.update r.inUse i true
    | none => r.inUse

/-- `fs_open`: what it returns, `none` if it never does, and what it leaves behind. -/
def openFile (be : Backend β) (serve : β → Option β) (name : Bytes) (s : FileSys β) :
    Option Int × FileSys β :=
  match (fsOpen be name).solo (kfsServe serve) (if s.held then onlyFlk else Machine.noLocks) s.kfs with
  | none => (none, s)
  | some ((result, io), held, kfs) =>
    (some result,
      { kfs := kfs
        refs := match io with
          | some io => s.refs.opened kfs.table.mounted io
          | none => s.refs
        held := held .flk })

/-- `fs_close` -/
def closeFile (io : Nat) (s : FileSys β) : FileSys β :=
  { s with refs := fsClose s.kfs.table.mounted io s.refs }

inductive Call where
  | open (name : Bytes)
  | close (io : Nat)

/-- The state after some calls. A call that never returns leaves the others going on. -/
def calls (be : Backend β) (serve : β → Option β) : FileSys β → List Call → FileSys β
  | s, [] => s
  | s, .open name :: cs => calls be serve (openFile be serve name s).2 cs
  | s, .close io :: cs => calls be serve (closeFile io s) cs

/-- What the calls of `fs_open` return. -/
def results (be : Backend β) (serve : β → Option β) : FileSys β → List Call →
    List (Bytes × Option Int)
  | _, [] => []
  | s, .open name :: cs =>
    (name, (openFile be serve name s).1) :: results be serve (openFile be serve name s).2 cs
  | s, .close io :: cs => results be serve (closeFile io s) cs

/-- The names that are opened. -/
def names : List Call → List Bytes
  | [] => []
  | .open name :: cs => name :: names cs
  | .close _ :: cs => names cs

/-! ## What one call does -/

variable {be : Backend β} {serve : β → Option β} {Ok : β → Prop} {disk : β → Bytes}
  {pos : β → Nat} {W : Nat → Nat → Prop} {s : FileSys β} {name : Bytes}

/-- The directory lists the name. -/
def Known (superBlock name : Bytes) : Prop := (findEntry superBlock name).isSome

/-- A mounted file system: the device works, and the inodes that the directory refers to are
on the disk. -/
structure MountedOn (Ok : β → Prop) (disk : β → Bytes) (superBlock : Bytes) (kfs : KfsState β) :
    Prop where
  ok : Ok kfs.fs.below
  boot : kfs.table.superBlock = superBlock
  small : (disk kfs.fs.below).length < 2 ^ 31
  inodes : ∀ name e, findEntry superBlock name = some e →
    le32 superBlock (dentry e + 32) * FS_BLKSZ + 2 * FS_BLKSZ ≤ (disk kfs.fs.below).length

/-- The slots that have been used. -/
def used (t : Table) : Finset (Fin MAX_OPEN_FILE_CT) :=
  Finset.univ.filter fun i => (t.slots i).io ≠ none

variable {superBlock : Bytes} {k : Nat}

theorem mem_used {t : Table} {i : Fin MAX_OPEN_FILE_CT} : i ∈ used t ↔ (t.slots i).io ≠ none := by
  unfold used
  rw [Finset.mem_filter]
  exact and_iff_right (Finset.mem_univ i)

theorem freeSlot_eq_none {t : Table} : freeSlot t = none ↔ (used t).card = MAX_OPEN_FILE_CT := by
  have hall : freeSlot t = none ↔ ∀ i, i ∈ used t := by
    simp [freeSlot, List.find?_eq_none, mem_used]
  have hcard := Finset.card_eq_iff_eq_univ (used t)
  rw [Fintype.card_fin] at hcard
  rw [hall, hcard, Finset.eq_univ_iff_forall]

/-- The slot that the search finds was not used, and is when it has been filled. -/
theorem card_used_fillSlot {kfs : KfsState β} {i : Fin MAX_OPEN_FILE_CT} {slot : Slot}
    (hfree : freeSlot kfs.table = some i) (hslot : slot.io ≠ none) :
    (used (fillSlot i slot kfs).table).card = (used kfs.table).card + 1 := by
  have hi : i ∉ used kfs.table := by
    rw [mem_used, not_not]
    simpa using List.find?_some hfree
  have hinsert : used (fillSlot i slot kfs).table = insert i (used kfs.table) := by
    ext j
    rw [Finset.mem_insert, mem_used, mem_used]
    show (Function.update kfs.table.slots i slot j).io ≠ none ↔ _
    by_cases hj : j = i
    · subst hj
      simp [hslot]
    · simp [hj]
  rw [hinsert, Finset.card_insert_of_notMem hi]

theorem openFile_blocked (hheld : s.held = true) : openFile be serve name s = (none, s) := by
  have hblock : (fsOpen be name).solo (kfsServe serve) onlyFlk s.kfs = none :=
    Prog.solo_lock_bind_held (Function.update_self ..) _ _
  unfold openFile
  rw [hheld, if_pos rfl, hblock]

/-- A part of `fs_open` that uses `system_io` or the heap, run with `flk` held. -/
theorem solo_fs {α : Type} {p : Code β α} {a : α} {f : FsState β} (kfs : KfsState β)
    (hp : p.Disciplined (fsServe serve) .usedUpdated .flk onlyFlk onlyFlk)
    (h : p.exec (fsServe serve) kfs.fs = some (a, f)) :
    (p.zoom (fsLens β)).solo (kfsServe serve) onlyFlk kfs = some (a, onlyFlk, { kfs with fs := f }) :=
  (hp.zoom (fsLens β)).solo (exec_fs h)

theorem solo_unlock_flk (kfs : KfsState β) :
    (Prog.unlock .flk : Prog (KfsState β) KLock KCond Unit).solo (kfsServe serve) onlyFlk kfs =
      some ((), Machine.noLocks, kfs) :=
  (unlock_flk.zoom (fsLens β)).solo rfl

/-- `fs_open` of a name that is not in the directory returns with `flk` held. -/
theorem solo_fsOpen_unknown {kfs : KfsState β} (hname : ¬ Known kfs.table.superBlock name) :
    (fsOpen be name).solo (kfsServe serve) Machine.noLocks kfs =
      some ((-ENOENT, none), onlyFlk, kfs) := by
  have hnone : findEntry kfs.table.superBlock name = none := by simpa [Known] using hname
  unfold fsOpen
  rw [Prog.solo_lock_bind rfl, Prog.solo_get_bind, hnone]
  rfl

/-- `fs_open` of a name in the directory, up to the search for a slot. -/
theorem solo_fsOpen_known (hd : Medium be serve Ok disk pos (fun _ _ => True) W) (hbe : be.Ok serve)
    {kfs : KfsState β} (hm : MountedOn Ok disk superBlock kfs) (hname : Known superBlock name) :
    ∃ b fileStruct inode, Ok b ∧ disk b = disk kfs.fs.below ∧
      (fsOpen be name).solo (kfsServe serve) Machine.noLocks kfs =
        match freeSlot kfs.table with
        | none => some ((-EFILESYS, some kfs.table.nextIo), onlyFlk,
            { fs := { kfs.fs with below := b }
              table := { kfs.table with nextIo := kfs.table.nextIo + 1 } })
        | some i => some ((0, some kfs.table.nextIo), Machine.noLocks,
            fillSlot i ⟨some kfs.table.nextIo, byteLen fileStruct, inode⟩
              { fs := { kfs.fs with below := b }
                table := { kfs.table with nextIo := kfs.table.nextIo + 1 } }) := by
  obtain ⟨e, hentry⟩ := Option.isSome_iff_exists.mp hname
  have hin := hm.inodes name e hentry
  rw [← hm.boot] at hentry hin
  generalize hinode : le32 kfs.table.superBlock (dentry e + 32) = inode at hin
  obtain ⟨r, b₁, v, b₂, b₃, v', b₄, hseek, halloc, hread, halloc', hok₄, hdisk₄⟩ :=
    exec_openReads hd hm.ok hin hm.small trivial
  have hctl : ∀ cmd arg, (be.io.ctl cmd arg).Disciplined (fsServe serve) .usedUpdated .flk
      onlyFlk onlyFlk := (hbe.io.zoom (belowLens β)).ctl
  have hdread : ∀ buf, (be.io.read buf).Disciplined (fsServe serve) .usedUpdated .flk
      onlyFlk onlyFlk := (hbe.io.zoom (belowLens β)).read
  have hdalloc : ∀ n, (be.alloc n).Disciplined (fsServe serve) .usedUpdated .flk onlyFlk onlyFlk :=
    fun n => (hbe.kmalloc n onlyFlk).zoom (belowLens β)
  refine ⟨b₄, slice (disk kfs.fs.below) (inode * FS_BLKSZ + FS_BLKSZ) FS_BLKSZ, inode, hok₄, hdisk₄,
    ?_⟩
  unfold fsOpen
  rw [Prog.solo_lock_bind rfl, Prog.solo_get_bind, hentry]
  change Prog.solo _ _ onlyFlk kfs = _
  dsimp only
  rw [hinode, if_neg (inode_ne_mark hin hm.small),
    Prog.solo_bind_of_eq (solo_fs kfs (hctl _ _) hseek),
    Prog.solo_bind_of_eq
      (solo_fs { kfs with fs := { kfs.fs with below := b₁ } } (hdalloc _) halloc),
    Prog.solo_bind_of_eq
      (solo_fs { kfs with fs := { kfs.fs with below := b₂ } } (hdread _) hread)]
  dsimp only
  rw [if_neg (by omega), Prog.solo_bind_of_eq
    (solo_fs { kfs with fs := { kfs.fs with below := b₃ } } (hdalloc _) halloc'),
    Prog.solo_get_bind, Prog.solo_modify_bind]
  dsimp only
  cases freeSlot kfs.table with
  | none => rfl
  | some i =>
    dsimp only
    rw [Prog.solo_modify_bind, Prog.solo_bind_of_eq (solo_unlock_flk _)]
    rfl

theorem MountedOn.keep {kfs kfs' : KfsState β} (hm : MountedOn Ok disk superBlock kfs)
    (hok : Ok kfs'.fs.below) (hdisk : disk kfs'.fs.below = disk kfs.fs.below)
    (hboot : kfs'.table.superBlock = kfs.table.superBlock) : MountedOn Ok disk superBlock kfs' where
  ok := hok
  boot := hboot.trans hm.boot
  small := by
    rw [hdisk]
    exact hm.small
  inodes := by
    rw [hdisk]
    exact hm.inodes

/-- `fs_open` of a name that does not exist. -/
theorem openFile_unknown (hm : MountedOn Ok disk superBlock s.kfs) (hheld : s.held = false)
    (hname : ¬ Known superBlock name) :
    openFile be serve name s = (some (-ENOENT), { s with held := true }) := by
  rw [← hm.boot] at hname
  unfold openFile
  rw [hheld, if_neg Bool.false_ne_true, solo_fsOpen_unknown hname]
  rfl

/-- `fs_open` of an existing name when every slot has been used. -/
theorem openFile_full (hd : Medium be serve Ok disk pos (fun _ _ => True) W) (hbe : be.Ok serve)
    (hm : MountedOn Ok disk superBlock s.kfs) (hheld : s.held = false)
    (hname : Known superBlock name) (hfull : (used s.kfs.table).card = MAX_OPEN_FILE_CT) :
    (openFile be serve name s).1 = some (-EFILESYS) ∧ (openFile be serve name s).2.held = true ∧
      (openFile be serve name s).2.kfs.table.slots = s.kfs.table.slots := by
  obtain ⟨b, fileStruct, inode, -, -, hopen⟩ := solo_fsOpen_known hd hbe hm hname
  rw [freeSlot_eq_none.mpr hfull] at hopen
  unfold openFile
  rw [hheld, if_neg Bool.false_ne_true, hopen]
  exact ⟨rfl, rfl, rfl⟩

/-- The state after an `fs_open` that succeeds: a slot that was never used before has the new
`io_intf`. -/
structure Opened (Ok : β → Prop) (disk : β → Bytes) (superBlock : Bytes) (s s' : FileSys β)
    (i : Fin MAX_OPEN_FILE_CT) : Prop where
  mounted : MountedOn Ok disk superBlock s'.kfs
  free : (s.kfs.table.slots i).io = none
  slot : (s'.kfs.table.slots i).io = some s.kfs.table.nextIo
  others : ∀ j ≠ i, s'.kfs.table.slots j = s.kfs.table.slots j
  nextIo : s'.kfs.table.nextIo = s.kfs.table.nextIo + 1
  card : (used s'.kfs.table).card = (used s.kfs.table).card + 1
  refs : s'.refs = s.refs.opened s'.kfs.table.mounted s.kfs.table.nextIo
  held : s'.held = false

/-- `fs_open` of an existing name while a slot is left. -/
theorem openFile_known (hd : Medium be serve Ok disk pos (fun _ _ => True) W) (hbe : be.Ok serve)
    (hm : MountedOn Ok disk superBlock s.kfs) (hheld : s.held = false)
    (hname : Known superBlock name) (hroom : (used s.kfs.table).card ≠ MAX_OPEN_FILE_CT) :
    (openFile be serve name s).1 = some 0 ∧
      ∃ i, Opened Ok disk superBlock s (openFile be serve name s).2 i := by
  obtain ⟨b, fileStruct, inode, hok, hdisk, hopen⟩ := solo_fsOpen_known hd hbe hm hname
  obtain ⟨i, hfree⟩ := Option.ne_none_iff_exists'.mp (mt freeSlot_eq_none.mp hroom)
  rw [hfree] at hopen
  unfold openFile
  rw [hheld, if_neg Bool.false_ne_true, hopen]
  refine ⟨rfl, i, ?_⟩
  exact
    { mounted := hm.keep hok hdisk rfl
      free := by simpa using List.find?_some hfree
      slot := by simp [fillSlot]
      others := fun j hj => by simp [fillSlot, hj]
      nextIo := rfl
      card := card_used_fillSlot hfree (Option.some_ne_none _)
      refs := rfl
      held := rfl }

/-! ## Runs of calls -/

/-- The names that can be opened one after another when `k` slots have been used: existing
ones while a slot is left, and then ones that do not exist. -/
def Served (superBlock : Bytes) (k : Nat) (names : List Bytes) : Prop :=
  ∃ known missing, names = known ++ missing ∧ (∀ name ∈ known, Known superBlock name) ∧
    (∀ name ∈ missing, ¬ Known superBlock name) ∧ k + known.length ≤ MAX_OPEN_FILE_CT

variable {ns : List Bytes}

theorem served_nil (hk : k ≤ MAX_OPEN_FILE_CT) : Served superBlock k [] :=
  ⟨[], [], rfl, by simp, by simp, by simpa using hk⟩

theorem served_known (hname : Known superBlock name) :
    Served superBlock k (name :: ns) ↔ k < MAX_OPEN_FILE_CT ∧ Served superBlock (k + 1) ns := by
  constructor
  · rintro ⟨known, missing, happ, hknown, hmissing, hle⟩
    cases known with
    | nil => exact absurd hname (hmissing name (by rw [← List.nil_append missing, ← happ]; simp))
    | cons n known =>
      obtain ⟨rfl, rfl⟩ := List.cons.inj happ
      rw [List.length_cons] at hle
      exact ⟨by omega, known, missing, rfl, fun m hm => hknown m (List.mem_cons_of_mem _ hm),
        hmissing, by omega⟩
  · rintro ⟨-, known, missing, rfl, hknown, hmissing, hle⟩
    refine ⟨name :: known, missing, rfl, ?_, hmissing, ?_⟩
    · intro m hm
      obtain rfl | hm := List.mem_cons.mp hm
      · exact hname
      · exact hknown m hm
    · rw [List.length_cons]
      omega

theorem served_unknown (hname : ¬ Known superBlock name) (hk : k ≤ MAX_OPEN_FILE_CT) :
    Served superBlock k (name :: ns) ↔ ∀ n ∈ ns, ¬ Known superBlock n := by
  constructor
  · rintro ⟨known, missing, happ, hknown, hmissing, -⟩
    cases known with
    | nil =>
      obtain rfl : name :: ns = missing := happ
      exact fun n hn => hmissing n (List.mem_cons_of_mem _ hn)
    | cons n known =>
      obtain ⟨rfl, rfl⟩ := List.cons.inj happ
      exact absurd (hknown name (List.mem_cons_self ..)) hname
  · intro hns
    refine ⟨[], name :: ns, rfl, by simp, ?_, by simpa using hk⟩
    intro m hm
    obtain rfl | hm := List.mem_cons.mp hm
    · exact hname
    · exact hns m hm

/-- Every `fs_open` of an existing name returns 0. -/
def Succeed (be : Backend β) (serve : β → Option β) (superBlock : Bytes) (s : FileSys β)
    (cs : List Call) : Prop :=
  ∀ r ∈ results be serve s cs, Known superBlock r.1 → r.2 = some 0

theorem succeed_open {cs : List Call} :
    Succeed be serve superBlock s (.open name :: cs) ↔
      (Known superBlock name → (openFile be serve name s).1 = some 0) ∧
        Succeed be serve superBlock (openFile be serve name s).2 cs := by
  simp [Succeed, results]

/-- Once `flk` is left held, every `fs_open` waits forever. -/
theorem succeed_held (hheld : s.held = true) (cs : List Call) :
    Succeed be serve superBlock s cs ↔ ∀ n ∈ names cs, ¬ Known superBlock n := by
  induction cs generalizing s with
  | nil => simp [Succeed, results, names]
  | cons c cs ih =>
    cases c with
    | close io => exact ih hheld
    | «open» name =>
      rw [succeed_open, openFile_blocked hheld, ih hheld]
      simp [names]

theorem succeed_iff (hd : Medium be serve Ok disk pos (fun _ _ => True) W) (hbe : be.Ok serve)
    (hm : MountedOn Ok disk superBlock s.kfs) (hheld : s.held = false) (cs : List Call) :
    Succeed be serve superBlock s cs ↔ Served superBlock (used s.kfs.table).card (names cs) := by
  have hle (t : Table) : (used t).card ≤ MAX_OPEN_FILE_CT := by
    simpa using Finset.card_le_univ (used t)
  induction cs generalizing s with
  | nil => exact ⟨fun _ => served_nil (hle _), fun _ => by simp [Succeed, results]⟩
  | cons c cs ih =>
    cases c with
    | close io => exact ih hm hheld
    | «open» name =>
      rw [succeed_open]
      show _ ↔ Served superBlock _ (name :: names cs)
      by_cases hname : Known superBlock name
      · rw [served_known hname]
        by_cases hfull : (used s.kfs.table).card = MAX_OPEN_FILE_CT
        · -- no slot is left: the call fails, and so does the right-hand side
          obtain ⟨hret, -⟩ := openFile_full hd hbe hm hheld hname hfull
          rw [hret]
          exact ⟨fun h => absurd (h.1 hname) (by decide), fun h => absurd h.1 (by omega)⟩
        · obtain ⟨hret, i, hopened⟩ := openFile_known hd hbe hm hheld hname hfull
          have := hle s.kfs.table
          have hrest := ih hopened.mounted hopened.held
          rw [hopened.card] at hrest
          exact and_congr ⟨fun _ => by omega, fun _ _ => hret⟩ hrest
      · rw [served_unknown hname (hle _), openFile_unknown hm hheld hname]
        rw [succeed_held rfl]
        exact and_iff_right fun h => absurd h hname

/-- Between calls: `flk` is left held, or the file system is mounted. -/
def Between (Ok : β → Prop) (disk : β → Bytes) (superBlock : Bytes) (s : FileSys β) : Prop :=
  s.held = true ∨ s.held = false ∧ MountedOn Ok disk superBlock s.kfs

/-- A call of `fs_open` changes no slot that has been used. -/
theorem openFile_slots (hd : Medium be serve Ok disk pos (fun _ _ => True) W) (hbe : be.Ok serve)
    (hs : Between Ok disk superBlock s) :
    Between Ok disk superBlock (openFile be serve name s).2 ∧
      ∀ i, (s.kfs.table.slots i).io ≠ none →
        (openFile be serve name s).2.kfs.table.slots i = s.kfs.table.slots i := by
  obtain hheld | ⟨hheld, hm⟩ := hs
  · rw [openFile_blocked hheld]
    exact ⟨.inl hheld, fun _ _ => rfl⟩
  · by_cases hname : Known superBlock name
    · by_cases hfull : (used s.kfs.table).card = MAX_OPEN_FILE_CT
      · obtain ⟨-, hheld', hslots⟩ := openFile_full hd hbe hm hheld hname hfull
        exact ⟨.inl hheld', fun i _ => congrFun hslots i⟩
      · obtain ⟨-, i, hopened⟩ := openFile_known hd hbe hm hheld hname hfull
        refine ⟨.inr ⟨hopened.held, hopened.mounted⟩, fun j hj => hopened.others j ?_⟩
        rintro rfl
        exact hj hopened.free
    · rw [openFile_unknown hm hheld hname]
      exact ⟨.inl rfl, fun _ _ => rfl⟩

theorem calls_slots (hd : Medium be serve Ok disk pos (fun _ _ => True) W) (hbe : be.Ok serve)
    (hs : Between Ok disk superBlock s) (cs : List Call) :
    Between Ok disk superBlock (calls be serve s cs) ∧
      ∀ i, (s.kfs.table.slots i).io ≠ none →
        (calls be serve s cs).kfs.table.slots i = s.kfs.table.slots i := by
  induction cs generalizing s with
  | nil => exact ⟨hs, fun _ _ => rfl⟩
  | cons c cs ih =>
    cases c with
    | close io => exact ih hs
    | «open» name =>
      have hopen : Between Ok disk superBlock (openFile be serve name s).2 ∧ _ :=
        openFile_slots hd hbe hs
      obtain ⟨hs', hkept⟩ := hopen
      obtain ⟨hend, hrest⟩ := ih hs'
      refine ⟨hend, fun i hi => ?_⟩
      have hi' := hkept i hi
      rw [← hi']
      exact hrest i (by rw [hi']; exact hi)

theorem calls_append (cs₁ cs₂ : List Call) :
    calls be serve s (cs₁ ++ cs₂) = calls be serve (calls be serve s cs₁) cs₂ := by
  induction cs₁ generalizing s with
  | nil => rfl
  | cons c cs₁ ih => cases c <;> exact ih

/-- The open-file table over a run of calls on a mounted file system with no file open. Every
`fs_open` of an existing name succeeds if and only if the run opens at most 32 existing names,
before any that does not exist. A slot that has been given to a file is given to no other. -/
theorem open_file_table_iff (hd : Medium be serve Ok disk pos (fun _ _ => True) W) (hbe : be.Ok serve)
    (hm : MountedOn Ok disk superBlock s.kfs) (hheld : s.held = false)
    (hempty : ∀ i, (s.kfs.table.slots i).io = none) (cs : List Call) :
    (Succeed be serve superBlock s cs ↔ ∃ known missing, names cs = known ++ missing ∧
      (∀ name ∈ known, Known superBlock name) ∧ (∀ name ∈ missing, ¬ Known superBlock name) ∧
      known.length ≤ MAX_OPEN_FILE_CT) ∧
    ∀ cs₁ cs₂, cs = cs₁ ++ cs₂ → ∀ i, ((calls be serve s cs₁).kfs.table.slots i).io ≠ none →
      (calls be serve s cs).kfs.table.slots i = (calls be serve s cs₁).kfs.table.slots i := by
  have hused : (used s.kfs.table).card = 0 := by
    rw [Finset.card_eq_zero, Finset.eq_empty_iff_forall_notMem]
    intro i hi
    exact mem_used.mp hi (hempty i)
  constructor
  · rw [succeed_iff hd hbe hm hheld, hused]
    simp only [Served, Nat.zero_add]
  · rintro cs₁ cs₂ rfl i hi
    rw [calls_append]
    have hmid := (calls_slots hd hbe (.inr ⟨hheld, hm⟩) cs₁).1
    exact (calls_slots hd hbe hmid cs₂).2 i hi

/-! ## Opening and closing one file again and again -/

/-- `n` rounds of opening a file and closing it; the `io_intf` are numbered from `k`. -/
def rounds (name : Bytes) : Nat → Nat → List Call
  | _, 0 => []
  | k, n + 1 => .open name :: .close k :: rounds name (k + 1) n

/-- The state after `k` rounds: every file is closed, and `k` slots have been used. -/
structure AllClosed (Ok : β → Prop) (disk : β → Bytes) (superBlock : Bytes) (k : Nat)
    (s : FileSys β) : Prop where
  mounted : MountedOn Ok disk superBlock s.kfs
  held : s.held = false
  nextIo : s.kfs.table.nextIo = k
  card : (used s.kfs.table).card = k
  older : ∀ i io, (s.kfs.table.slots i).io = some io → io < k
  closed : ∀ i, s.refs.inUse i = false

theorem AllClosed.round (hd : Medium be serve Ok disk pos (fun _ _ => True) W) (hbe : be.Ok serve)
    (hs : AllClosed Ok disk superBlock k s) (hname : Known superBlock name)
    (hk : k < MAX_OPEN_FILE_CT) :
    (openFile be serve name s).1 = some 0 ∧
      AllClosed Ok disk superBlock (k + 1) (closeFile k (openFile be serve name s).2) := by
  obtain ⟨hret, i, h⟩ := openFile_known hd hbe hs.mounted hs.held hname (by rw [hs.card]; omega)
  generalize (openFile be serve name s).2 = s' at h
  refine ⟨hret, ?_⟩
  have hslot := h.slot
  have hrefs := h.refs
  rw [hs.nextIo] at hslot hrefs
  -- the slot just filled is the only one with the new `io_intf`
  have hfirst : firstSlot s'.kfs.table.mounted k = some i := by
    refine (slot_of_unique _ k i hslot fun j hj => ?_).1
    by_contra hne
    have hj' : (s.kfs.table.slots j).io = some k := by
      rw [← h.others j hne]
      exact hj
    exact absurd (hs.older j k hj') (lt_irrefl k)
  exact
    { mounted := h.mounted
      held := h.held
      nextIo := by
        rw [← hs.nextIo]
        exact h.nextIo
      card := by
        rw [← hs.card]
        exact h.card
      older := fun j io hj => by
        by_cases hji : j = i
        · subst hji
          obtain rfl : k = io := Option.some.inj (hslot.symm.trans hj)
          exact Nat.lt_succ_self k
        · have hj' : (s.kfs.table.slots j).io = some io := by
            rw [← h.others j hji]
            exact hj
          exact Nat.lt_succ_of_lt (hs.older j io hj')
      closed := fun j => by
        have hcnt : u32 (((1 : Nat) : Int) - 1) = 0 := u32_eq (n := 0) rfl (by decide)
        simp only [closeFile, fsClose, hrefs, RefState.opened, hfirst, Function.update_self, hcnt,
          if_pos, Function.update_idem]
        by_cases hji : j = i
        · rw [hji, Function.update_self]
        · rw [Function.update_of_ne hji]
          exact hs.closed j }

/-- Rounds succeed while a slot is left. -/
theorem results_rounds (hd : Medium be serve Ok disk pos (fun _ _ => True) W) (hbe : be.Ok serve)
    (hname : Known superBlock name) (n : Nat) (hs : AllClosed Ok disk superBlock k s)
    (hk : k + n ≤ MAX_OPEN_FILE_CT) :
    results be serve s (rounds name k n) = List.replicate n (name, some 0) ∧
      AllClosed Ok disk superBlock (k + n) (calls be serve s (rounds name k n)) := by
  induction n generalizing k s with
  | zero => exact ⟨rfl, hs⟩
  | succ n ih =>
    obtain ⟨hret, hround⟩ := hs.round hd hbe hname (by omega)
    obtain ⟨hres, hend⟩ := ih hround (by omega)
    constructor
    · show (name, _) :: results be serve _ (rounds name (k + 1) n) = _
      rw [hret, hres]
      rfl
    · rw [show k + (n + 1) = k + 1 + n by omega]
      exact hend

end Kfs

namespace Mkfs

open Kfs

/-- The inode numbers of the directory stay inside the image. -/
theorem bootBlock_inode_in_image (junk : Nat → List.Vector UInt8 FS_BLKSZ) {files : List HostFile}
    (hcount : files.length ≤ DIR_ENTRY_CT) (hfiles : files ≠ []) (e : Nat) :
    le32 (bootBlock files) (dentry e + 32) * FS_BLKSZ + 2 * FS_BLKSZ ≤
      (image junk files).length := by
  have hpos := List.length_pos_iff.mpr hfiles
  have hinode : le32 (bootBlock files) (dentry e + 32) < files.length := by
    by_cases he : e < files.length
    · have hsplit : files = files.take e ++ files[e] :: files.drop (e + 1) := by simp
      have hlen : (files.take e).length = e := by
        rw [List.length_take]
        omega
      have := @bootBlock_inode (files.take e) (files.drop (e + 1)) files[e]
        (by rw [← hsplit]; exact hcount)
      rw [← hsplit, hlen] at this
      omega
    · rw [bootBlock_unused_inode (by omega)]
      exact hpos
  rw [length_image junk hcount]
  unfold FS_BLKSZ
  omega

/-! The image with the files `a` and `b`, mounted. -/

def geometryAB : Geometry := imageGeometry (fun _ => List.Vector.replicate _ 0) filesAB

def backendAB : Backend (Blk geometryAB Unit) := backend geometryAB zeroPages

def mountedAB : FileSys (Blk geometryAB Unit) where
  kfs :=
    { bootState (fun _ => List.Vector.replicate _ 0) filesAB () with
      table :=
        { superBlock := bootBlock filesAB.files, slots := fun _ => ⟨none, 0, 0⟩, nextIo := 0 } }
  refs := ⟨fun _ => 0, fun _ => false⟩
  held := false

theorem allClosed_mountedAB :
    AllClosed (fun b : Blk geometryAB Unit => b.dev.opened = true ∧ b.dev.pending = false)
      (fun b => b.dev.disk.toList) (bootBlock filesAB.files) 0 mountedAB where
  mounted :=
    { ok := ⟨rfl, rfl⟩
      boot := rfl
      small := by
        have := image_lt (fun _ => List.Vector.replicate _ 0) filesAB.count
        show (image _ _).length < _
        omega
      inodes := fun _ e _ => bootBlock_inode_in_image _ filesAB.count (List.cons_ne_nil _ _) e }
  held := rfl
  nextIo := rfl
  card := rfl
  older := nofun
  closed := fun _ => rfl

theorem medium_AB : Medium backendAB Vioblk.serve
    (fun b => b.dev.opened = true ∧ b.dev.pending = false) (fun b => b.dev.disk.toList)
    (fun b => b.dev.pos) (fun _ _ => True) (fun _ _ => True) := by
  refine medium_blk ⟨rfl, ?_⟩ zeroPages
  have := image_lt (fun _ => List.Vector.replicate _ 0) filesAB.count
  show (image _ _).length < _
  omega

theorem known_a : Known (bootBlock filesAB.files) (ascii "a") := by
  have hentry := @findEntry_bootBlock [] [fileB] fileA filesAB.count filesAB.distinct
  exact Option.isSome_of_eq_some hentry

/-- Two files may be open at once, and are closed. -/
theorem open_file_table_two : Succeed backendAB Vioblk.serve (bootBlock filesAB.files) mountedAB
    [.open (ascii "a"), .open (ascii "a"), .close 0, .close 1] := by
  have hs := allClosed_mountedAB
  refine (open_file_table_iff medium_AB (blkBackend_ok _ _) hs.mounted rfl (fun _ => rfl)
    _).1.mpr ⟨[ascii "a", ascii "a"], [], rfl, ?_, by simp, by decide⟩
  simp [known_a]

/-- The 33rd `fs_open` of the file `a` fails, although every file that was opened has been
closed. -/
theorem open_file_table_exhausted :
    ∃ s, calls backendAB Vioblk.serve mountedAB (rounds (ascii "a") 0 32) = s ∧
      results backendAB Vioblk.serve mountedAB (rounds (ascii "a") 0 32) =
        List.replicate 32 (ascii "a", some 0) ∧
      (∀ i, s.refs.inUse i = false) ∧ Known s.kfs.table.superBlock (ascii "a") ∧
      (openFile backendAB Vioblk.serve (ascii "a") s).1 = some (-EFILESYS) := by
  obtain ⟨hres, hend⟩ := results_rounds medium_AB (blkBackend_ok _ _) known_a 32
    allClosed_mountedAB (by decide)
  refine ⟨_, rfl, hres, hend.closed, ?_, ?_⟩
  · rw [hend.mounted.boot]
    exact known_a
  · exact (openFile_full medium_AB (blkBackend_ok _ _) hend.mounted hend.held known_a
      hend.card).1

end Mkfs

end RiscvKernel
