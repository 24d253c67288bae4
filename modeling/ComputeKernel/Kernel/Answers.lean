import ComputeKernel.Kernel.Atomicity
import ComputeKernel.Kernel.Conventions

/-!
# Answers in either convention

Calls with arguments of the declared types return.  For the others it depends on the
handler what becomes of them: an error number, a result as if nothing were wrong, or an
exception.
-/

namespace ComputeKernel.Kernel.KernelState

open Lib Lib.Run Fs Memory Tasks Vfs

def Returns (outcome : Outcome) : Prop :=
  ∃ r, outcome.1 = .ok r

def Refuses (outcome : Outcome) : Prop :=
  ∃ r ∈ errorCodes, outcome.1 = .ok r

/-- The call returns an integer, and a negative error number if an argument is missing or
of another type than the handler declares. -/
def Answers (nr : Int) (args : List Value) (outcome : Outcome) : Prop :=
  ∃ r, outcome.1 = .ok r ∧ (decode nr (args.map Value.arg) = none → r ∈ errorCodes)

def Live (k : KernelState) (pid : Int) : Prop :=
  pid ∈ k.processTable.table

section Outcomes

variable (k : KernelState) (pid : Int)

@[simp] theorem returns_returns (r : Int) : Returns (k.returns r) :=
  ⟨r, rfl⟩

@[simp] theorem not_returns_raises (error : PyError) : ¬ Returns (k.raises error) := by
  rintro ⟨r, hr⟩
  cases hr

@[simp] theorem returns_performs (call : Syscall) : Returns (k.performs pid call) := by
  obtain ⟨r, -, hr⟩ := k.performs_returns pid call
  exact ⟨r, hr⟩

@[simp] theorem refuses_returns {r : Int} : Refuses (k.returns r) ↔ r ∈ errorCodes := by
  constructor
  · rintro ⟨r', hr', hsame⟩
    cases hsame
    exact hr'
  · exact fun hr => ⟨r, hr, rfl⟩

@[simp] theorem not_refuses_raises (error : PyError) : ¬ Refuses (k.raises error) := by
  rintro ⟨r, -, hr⟩
  cases hr

theorem refuses_performs {call : Syscall} {r : Int} (h : (k.perform pid call).1 = .ok r) :
    Refuses (k.performs pid call) ↔ r ∈ errorCodes := by
  have hperforms : (k.performs pid call).1 = .ok r := by
    rw [performs, h]
    rfl
  constructor
  · rintro ⟨r', hr', hsame⟩
    rw [hperforms] at hsame
    cases hsame
    exact hr'
  · exact fun hr => ⟨r, hr, hperforms⟩

theorem Refuses.returns {outcome : Outcome} (h : Refuses outcome) : Returns outcome := by
  obtain ⟨r, -, hr⟩ := h
  exact ⟨r, hr⟩

theorem refuses_badKey : Refuses (k.badKey pid) := by
  unfold badKey
  split
  · exact (k.refuses_returns).mpr (by decide)
  · exact (k.refuses_returns).mpr (by decide)

variable {k pid} {nr : Int} {args : List Value}

theorem answers_of_decode (h : decode nr (args.map Value.arg) ≠ none) :
    Answers nr args (k.callHandler pid nr args) := by
  obtain ⟨call, hcall⟩ := Option.ne_none_iff_exists'.mp h
  rw [callHandler_of_decode hcall]
  obtain ⟨r, -, hr⟩ := k.performs_returns pid call
  exact ⟨r, hr, fun hnone => absurd hnone h⟩

theorem answers_iff_refuses (h : decode nr (args.map Value.arg) = none) (outcome : Outcome) :
    Answers nr args outcome ↔ Refuses outcome := by
  constructor
  · rintro ⟨r, hr, hcode⟩
    exact ⟨r, hcode h, hr⟩
  · rintro ⟨r, hcode, hr⟩
    exact ⟨r, hr, fun _ => hcode⟩

theorem Answers.returns {outcome : Outcome} (h : Answers nr args outcome) : Returns outcome := by
  obtain ⟨r, hr, -⟩ := h
  exact ⟨r, hr⟩

theorem returns_dispatchValues :
    Returns (k.dispatchValues pid nr args) ↔
      Loggable pid nr (args.map Value.arg) ∧ Returns (k.callHandler pid nr args) := by
  by_cases hlog : Loggable pid nr (args.map Value.arg)
  · rw [dispatchValues_of_loggable hlog, and_iff_right hlog]
  · rw [dispatchValues_of_not_loggable hlog]
    exact iff_of_false (k.not_returns_raises _) fun h => hlog h.1

theorem answers_dispatchValues :
    Answers nr args (k.dispatchValues pid nr args) ↔
      Loggable pid nr (args.map Value.arg) ∧ Answers nr args (k.callHandler pid nr args) := by
  by_cases hlog : Loggable pid nr (args.map Value.arg)
  · rw [dispatchValues_of_loggable hlog, and_iff_right hlog]
  · exact iff_of_false (fun h => hlog (returns_dispatchValues.mp h.returns).1) fun h => hlog h.1

end Outcomes

/-! ## Handlers -/

section Handlers

variable {k : KernelState} {pid : Int}

theorem not_mem_errorCodes {r : Int} (h : 0 ≤ r) : r ∉ errorCodes := by
  intro hr
  have := neg_of_mem_errorCodes hr
  omega

theorem live_of_get {proc : Process} (h : k.processTable.get pid = some proc) : k.Live pid :=
  Dict.mem_of_get? h

theorem not_live_of_get (h : k.processTable.get pid = none) : ¬ k.Live pid :=
  Dict.get?_eq_none.mp h

theorem write_mem_errorCodes (vfs : VFS Unit TmpFS) (fd : Int) (data : Bytes) :
    (vfs.write fd data).1 ∈ errorCodes ↔ ¬ regularAt vfs fd := by
  unfold VFS.write regularAt
  cases vfs.openFiles.get? fd with
  | none => simp [errorCodes, EBADF]
  | some file =>
      dsimp only
      cases (vfs.resolvePath file.path).1 with
      | none => simp [errorCodes, ENOENT]
      | some ref =>
          dsimp only
          change (InodeTable.write (-2) (vfs.filesystems ref).inodes file.ino file.position
            data).1 ∈ errorCodes ↔ _
          unfold InodeTable.write TmpFS.lookup
          cases (vfs.filesystems ref).inodes.get? file.ino with
          | none => simp [errorCodes, ENOENT]
          | some inode =>
              by_cases hfile : inode.itype = .file
              · have hlength : (data.length : Int) ∉ errorCodes := not_mem_errorCodes (by omega)
                simp [hfile, hlength]
              · simp [hfile, errorCodes, EINVAL]

theorem returns_write_int {fd n : Int} :
    Returns (k.writeValues pid (.int fd) (some (.int n))) ↔
      (k.Live pid → fd = 1 ∨ fd = 2 → n = 0) := by
  unfold writeValues
  cases hproc : k.processTable.get pid with
  | none => simp [not_live_of_get hproc]
  | some proc =>
      by_cases hfd : fd = 1 ∨ fd = 2
      · by_cases hn : n = 0
        · simp [hfd, hn]
        · simp [hfd, hn, live_of_get hproc]
      · simp [hfd]

theorem refuses_write_int {fd n : Int} :
    Refuses (k.writeValues pid (.int fd) (some (.int n))) ↔
      (k.Live pid → (fd ≠ 1 ∧ fd ≠ 2) ∧ ¬ (k.processTable.Holds pid fd ∧ regularAt k.vfs fd)) := by
  unfold writeValues
  cases hproc : k.processTable.get pid with
  | none => simp [not_live_of_get hproc, errorCodes, EINVAL]
  | some proc =>
      have hlive := live_of_get hproc
      by_cases hfd : fd = 1 ∨ fd = 2
      · have hnot : ¬ (fd ≠ 1 ∧ fd ≠ 2) := by omega
        by_cases hn : n = 0
        · simp [hfd, hn, hlive, hnot, not_mem_errorCodes]
        · simp [hfd, hn, hlive, hnot]
      · have hother : fd ≠ 1 ∧ fd ≠ 2 := by omega
        have hholds : k.processTable.Holds pid fd ↔ fd ∈ proc.fdt.table := by
          simp [ProcessTable.Holds, hproc]
        dsimp only
        rw [if_neg hfd, refuses_performs k pid rfl, hholds, forall_prop_of_true hlive,
          and_iff_right hother, sysWrite, hproc]
        dsimp only
        rw [if_neg hfd]
        cases hentry : proc.fdt.get fd with
        | none =>
            have hnone : fd ∉ proc.fdt.table := Dict.get?_eq_none.mp hentry
            simp [hnone, errorCodes, EBADF]
        | some entry =>
            have hmem : fd ∈ proc.fdt.table := Dict.mem_of_get? hentry
            rw [write_mem_errorCodes, and_iff_right hmem]

theorem openat_int (h : k.vfs.mounts ≠ []) (path : Int) (flags : Value) :
    (Returns (k.openatValues pid (.int path) flags) ↔ (k.Live pid → path = 0)) ∧
      (Refuses (k.openatValues pid (.int path) flags) ↔ (k.Live pid → path = 0)) := by
  unfold openatValues
  cases hproc : k.processTable.get pid with
  | none => simp [not_live_of_get hproc, errorCodes, EINVAL]
  | some proc =>
      by_cases hpath : path = 0
      · simp [hpath, errorCodes, EINVAL]
      · simp [hpath, h, live_of_get hproc]

theorem refuses_openat_str (h : 3 ≤ k.vfs.nextFd) (path flags : Str) :
    Refuses (k.openatValues pid (.str path) (.str flags)) ↔
      (k.Live pid → path ≠ [] → k.vfs.stat path = none) := by
  have hnone : (k.Live pid → path ≠ [] → k.vfs.stat path = none) ↔ ¬ k.Opens pid path := by
    rw [not_opens_iff]
    exact forall_congr' fun _ => or_iff_not_imp_left.symm
  rw [hnone]
  change Refuses (k.performs pid (.openat (-100) path flags)) ↔ _
  rcases k.sysOpenat_cases pid (by omega) (-100) path flags with
    ⟨hclosed, r, hr, hopen⟩ | ⟨hopens, ref, fs, inode, hopen⟩
  · have hcall : (k.perform pid (.openat (-100) path flags)).1 = .ok r :=
      congrArg Prod.fst hopen
    rw [refuses_performs k pid hcall]
    exact iff_of_true hr hclosed
  · have hcall : (k.perform pid (.openat (-100) path flags)).1 = .ok k.vfs.nextFd :=
      congrArg Prod.fst hopen
    rw [refuses_performs k pid hcall]
    exact iff_of_false (not_mem_errorCodes (by omega)) (not_not.mpr hopens)

theorem refuses_mmap_int (addr length : Int) (flags name : Value) :
    Refuses (k.mmapValues pid (.int addr) (.int length) flags name) ↔
      (k.Live pid → k.vmm.Fits pid length → mmapAddr addr ∈ errorCodes) := by
  change Refuses (k.performs pid _) ↔ _
  rw [refuses_performs k pid rfl, sysMmap]
  by_cases hlength : length ≤ 0
  · have hfits : ¬ k.vmm.Fits pid length := fun hfits => Int.not_lt.mpr hlength hfits.2.1
    simp [hlength, hfits, errorCodes]
  · rw [if_neg hlength]
    cases hproc : k.processTable.get pid with
    | none => simp [not_live_of_get hproc, errorCodes]
    | some proc =>
        have hlive := live_of_get hproc
        have hfst := k.vmm.mapPages_fst pid (mmapAddr addr) length flags.text name.text
        dsimp only
        split
        · rename_i heq
          rw [heq] at hfst
          simp [of_decide_eq_false hfst.symm, errorCodes]
        · rename_i heq
          rw [heq] at hfst
          simp [hlive, of_decide_eq_true hfst.symm]

theorem mmap_str (addr : Str) (length : Int) (flags name : Value) :
    (Returns (k.mmapValues pid (.str addr) (.int length) flags name) ↔
        (k.Live pid → ¬ k.vmm.Fits pid length)) ∧
      (Refuses (k.mmapValues pid (.str addr) (.int length) flags name) ↔
        (k.Live pid → ¬ k.vmm.Fits pid length)) := by
  unfold mmapValues
  by_cases hlength : length ≤ 0
  · have hfits : ¬ k.vmm.Fits pid length := fun hfits => Int.not_lt.mpr hlength hfits.2.1
    simp [hlength, hfits, errorCodes, EINVAL]
  · cases hproc : k.processTable.get pid with
    | none => simp [hlength, not_live_of_get hproc, errorCodes, EINVAL]
    | some proc =>
        have hlive := live_of_get hproc
        have hfst := k.vmm.mapPages_fst pid 0 length [] []
        unfold VirtualMemoryManager.mapPages at hfst
        cases hspace : k.vmm.addressSpaces.get? pid with
        | none =>
            rw [hspace] at hfst
            simp [hlength, of_decide_eq_false hfst.symm, errorCodes, ENOMEM]
        | some space =>
            rw [hspace] at hfst
            dsimp only at hfst ⊢
            rw [if_neg hlength]
            split at hfst
            · rename_i hpages
              rw [if_pos hpages]
              simp [of_decide_eq_false hfst.symm, errorCodes, ENOMEM]
            · rename_i hpages
              rw [if_neg hpages]
              simp [hlive, of_decide_eq_true hfst.symm]

theorem refuses_execve (path : Str) (argv envp : Option (List Str)) :
    Refuses (k.performs pid (.execve path argv envp)) ↔ ¬ k.Live pid := by
  rw [refuses_performs k pid rfl, sysExecve]
  cases hproc : k.processTable.get pid with
  | none => simp [not_live_of_get hproc, errorCodes]
  | some proc => simp [live_of_get hproc, not_mem_errorCodes]

theorem execve_int (path : Int) :
    (Returns (k.execveValues pid (.int path)) ↔ (k.Live pid → path = 0)) ∧
      (Refuses (k.execveValues pid (.int path)) ↔ ¬ k.Live pid) := by
  unfold execveValues
  cases hproc : k.processTable.get pid with
  | none => simp [not_live_of_get hproc, errorCodes, EINVAL]
  | some proc =>
      have hlive := live_of_get hproc
      by_cases hpath : path = 0
      · simp [hpath, refuses_execve, hlive]
      · simp [hpath, hlive]

theorem refuses_exit (code : Int) : Refuses (k.performs pid (.exit code)) ↔ ¬ k.Live pid := by
  rw [refuses_performs k pid rfl, sysExit]
  cases hproc : k.processTable.get pid with
  | none => simp [not_live_of_get hproc, errorCodes]
  | some proc => simp [live_of_get hproc, not_mem_errorCodes]

theorem refuses_wait4 (h : k.processTable.PidsOk) (childPid options : Int) :
    Refuses (k.performs pid (.wait4 childPid options)) ↔ ¬ k.Live pid := by
  rw [refuses_performs k pid rfl, sysWait4]
  cases hproc : k.processTable.get pid with
  | none => simp [not_live_of_get hproc, errorCodes]
  | some parent =>
      have hlive := live_of_get hproc
      dsimp only
      split
      · simp [hlive, not_mem_errorCodes]
      · rename_i child hchild
        have hzombie := List.find?_some hchild
        have hmem : child ∈ k.processTable.table := by
          unfold ProcessTable.isZombie at hzombie
          split at hzombie
          · cases hzombie
          · rename_i hget
            exact Dict.mem_of_get? hget
        simp [hlive, not_mem_errorCodes (h.nonneg hmem)]

end Handlers

/-! ## Registers -/

/-- The registers do not reach an operation on strings or bytes. -/
def ContextReturns (k : KernelState) (ctx : SyscallContext) : Prop :=
  k.Live ctx.pid →
    (ctx.nr = 1 → ctx.rdi = 1 ∨ ctx.rdi = 2 → ctx.rsi = 0) ∧
    (ctx.nr = 2 → ctx.rsi = 0) ∧
    (ctx.nr = 59 → ctx.rdi = 0)

/-- The registers that stand for strings or bytes are not used, because the call fails
before. -/
def ContextAnswers (k : KernelState) (ctx : SyscallContext) : Prop :=
  k.Live ctx.pid →
    (ctx.nr = 1 → (ctx.rdi ≠ 1 ∧ ctx.rdi ≠ 2) ∧
      ¬ (k.processTable.Holds ctx.pid ctx.rdi ∧ regularAt k.vfs ctx.rdi)) ∧
    (ctx.nr = 2 → ctx.rsi = 0) ∧
    (ctx.nr = 9 → k.vmm.Fits ctx.pid ctx.rsi → mmapAddr ctx.rdi ∈ errorCodes) ∧
    ctx.nr ≠ 59

theorem decode_context (ctx : SyscallContext) :
    decode ctx.nr (ctx.args.map Value.arg) = none ↔
      ctx.nr = 1 ∨ ctx.nr = 2 ∨ ctx.nr = 9 ∨ ctx.nr = 59 := by
  unfold decode
  split
  case h_15 => grind
  all_goals simp [*, SyscallContext.args, Value.arg, intArg, strArg, bytesArg, listArg, argument,
    Arg.int?, Arg.str?, Arg.bytes?, Arg.list?]

theorem context_iff {k : KernelState} (h : Sane k) (ctx : SyscallContext) :
    (Returns (k.callHandler ctx.pid ctx.nr ctx.args) ↔ k.ContextReturns ctx) ∧
      (Answers ctx.nr ctx.args (k.callHandler ctx.pid ctx.nr ctx.args) ↔ k.ContextAnswers ctx) := by
  by_cases hdecode : decode ctx.nr (ctx.args.map Value.arg) = none
  · rw [answers_iff_refuses hdecode]
    rw [decode_context] at hdecode
    unfold ContextReturns ContextAnswers
    rcases hdecode with hnr | hnr | hnr | hnr
    · have hcall : k.callHandler ctx.pid 1 ctx.args =
          k.writeValues ctx.pid (.int ctx.rdi) (some (.int ctx.rsi)) := rfl
      rw [hnr, hcall, returns_write_int, refuses_write_int]
      simp
    · have hcall : k.callHandler ctx.pid 2 ctx.args =
          k.openatValues ctx.pid (.int ctx.rsi) (.int ctx.rdx) := rfl
      rw [hnr, hcall, (openat_int h.mounted _ _).1, (openat_int h.mounted _ _).2]
      simp
    · have hcall : k.callHandler ctx.pid 9 ctx.args =
          k.mmapValues ctx.pid (.int ctx.rdi) (.int ctx.rsi) (.int ctx.rdx) (.int ctx.r10) := rfl
      rw [hnr, hcall, refuses_mmap_int]
      simp [mmapValues]
    · have hcall : k.callHandler ctx.pid 59 ctx.args =
          k.execveValues ctx.pid (.int ctx.rdi) := rfl
      rw [hnr, hcall, (execve_int _).1, (execve_int _).2]
      simp
  · have hanswers : Answers ctx.nr ctx.args (k.callHandler ctx.pid ctx.nr ctx.args) :=
      answers_of_decode hdecode
    rw [decode_context] at hdecode
    refine ⟨iff_of_true hanswers.returns ?_, iff_of_true hanswers ?_⟩
    · intro _
      refine ⟨?_, ?_, ?_⟩ <;> intro hnr <;> omega
    · intro _
      refine ⟨?_, ?_, ?_, ?_⟩ <;> intro hnr <;> omega

/-! ## Words -/

/-- A required argument is there, and no string is compared with a number or added to
one. -/
def WordsReturn (k : KernelState) (pid nr : Int) (words : List Str) : Prop :=
  (nr = 0 ∨ nr = 1 ∨ nr = 3 → words ≠ []) ∧
  (nr = 9 → words.length ≤ 1 ∧ (words.length = 1 → k.Live pid → ¬ k.vmm.Fits pid 4096)) ∧
  (nr = 12 → words = [])

/-- Besides, words that stand for numbers are not passed to a handler that succeeds. -/
def WordsAnswer (k : KernelState) (pid nr : Int) (words : List Str) : Prop :=
  k.WordsReturn pid nr words ∧
  (nr = 2 → ∀ path, words[1]? = some path → k.Live pid → path ≠ [] → k.vfs.stat path = none) ∧
  (nr = 35 → words = []) ∧
  (nr = 59 → k.Live pid → words.length ≤ 1) ∧
  (nr = 60 ∨ nr = 61 → k.Live pid → words = [])

theorem decode_words (nr : Int) (words : List Str) :
    decode nr ((words.map Value.str).map Value.arg) = none ↔
      (nr = 0 ∨ nr = 1 ∨ nr = 3) ∨
      (nr = 2 ∨ nr = 9 ∨ nr = 11 ∨ nr = 12 ∨ nr = 35 ∨ nr = 60 ∨ nr = 61 ∨ nr = 62) ∧
        words ≠ [] ∨
      nr = 59 ∧ 2 ≤ words.length := by
  unfold decode
  split
  case h_15 => grind
  all_goals
    rcases words with - | ⟨first, - | ⟨second, rest⟩⟩ <;>
      simp [Value.arg, intArg, strArg, bytesArg, listArg, argument, Arg.int?, Arg.str?,
        Arg.bytes?, Arg.list?]

theorem callHandler_badKey {nr : Int} (hnr : nr = 0 ∨ nr = 1 ∨ nr = 3) (k : KernelState)
    (pid : Int) (word : Str) (words : List Str) :
    k.callHandler pid nr ((word :: words).map Value.str) = k.badKey pid := by
  rcases hnr with rfl | rfl | rfl
  · rfl
  · rfl
  · rfl

theorem words_descriptor {nr : Int} (hnr : nr = 0 ∨ nr = 1 ∨ nr = 3) (k : KernelState)
    (pid : Int) (words : List Str) :
    (Returns (k.callHandler pid nr (words.map Value.str)) ↔ k.WordsReturn pid nr words) ∧
      (Refuses (k.callHandler pid nr (words.map Value.str)) ↔ k.WordsAnswer pid nr words) := by
  cases words with
  | nil =>
      have hcall : k.callHandler pid nr [] = k.raises .typeError := by
        rcases hnr with rfl | rfl | rfl
        · rfl
        · rfl
        · rfl
      simp [hcall, hnr, WordsReturn, WordsAnswer]
  | cons word words =>
      have hrefuses := k.refuses_badKey pid
      rw [callHandler_badKey hnr]
      have hreturn : k.WordsReturn pid nr (word :: words) := by
        refine ⟨fun _ => List.cons_ne_nil _ _, ?_, ?_⟩ <;> intro hother <;> omega
      refine ⟨iff_of_true hrefuses.returns hreturn, iff_of_true hrefuses ⟨hreturn, ?_⟩⟩
      refine ⟨?_, ?_, ?_, ?_⟩ <;> intro hother <;> omega

theorem words_openat {k : KernelState} (h : 3 ≤ k.vfs.nextFd) (pid : Int) (word : Str)
    (rest : List Str) :
    (Returns (k.callHandler pid 2 ((word :: rest).map Value.str)) ↔
        k.WordsReturn pid 2 (word :: rest)) ∧
      (Refuses (k.callHandler pid 2 ((word :: rest).map Value.str)) ↔
        k.WordsAnswer pid 2 (word :: rest)) := by
  have hcall : k.callHandler pid 2 ((word :: rest).map Value.str) =
      k.openatValues pid (.str (rest.getD 0 [])) (.str (rest.getD 1 "r".toList)) := by
    rcases rest with - | ⟨path, - | ⟨flags, rest⟩⟩
    · rfl
    · rfl
    · rfl
  rw [hcall, refuses_openat_str h]
  refine ⟨iff_of_true (k.returns_performs pid _) (by simp [WordsReturn]), ?_⟩
  cases rest with
  | nil => simp [WordsReturn, WordsAnswer]
  | cons path rest => simp [WordsReturn, WordsAnswer]

/-- One word is the address, and the length is a page; a second word would be the length,
and is compared with a number. -/
theorem words_mmap (k : KernelState) (pid : Int) (word : Str) (rest : List Str) :
    (Returns (k.callHandler pid 9 ((word :: rest).map Value.str)) ↔
        k.WordsReturn pid 9 (word :: rest)) ∧
      (Refuses (k.callHandler pid 9 ((word :: rest).map Value.str)) ↔
        k.WordsAnswer pid 9 (word :: rest)) := by
  cases rest with
  | nil =>
      have hcall : k.callHandler pid 9 ([word].map Value.str) =
          k.mmapValues pid (.str word) (.int 4096) (.str "rw-".toList)
            (.str "[mmap]".toList) := rfl
      rw [hcall, (mmap_str _ _ _ _).1, (mmap_str _ _ _ _).2]
      simp [WordsReturn, WordsAnswer]
  | cons length rest =>
      have hcall : k.callHandler pid 9 ((word :: length :: rest).map Value.str) =
          k.raises .typeError := rfl
      rw [hcall]
      simp [WordsReturn, WordsAnswer]

theorem loggable_words (pid nr : Int) (words : List Str) :
    Loggable pid nr ((words.map Value.str).map Value.arg) ↔ HasText pid ∧ HasText nr := by
  unfold Loggable
  simp [Value.arg, Arg.HasText]

theorem words_iff {k : KernelState} (h : Sane k) (pid nr : Int) (words : List Str) :
    (Returns (k.callHandler pid nr (words.map Value.str)) ↔ k.WordsReturn pid nr words) ∧
      (Answers nr (words.map Value.str) (k.callHandler pid nr (words.map Value.str)) ↔
        k.WordsAnswer pid nr words) := by
  by_cases hdecode : decode nr ((words.map Value.str).map Value.arg) = none
  · rw [answers_iff_refuses hdecode]
    rw [decode_words] at hdecode
    rcases hdecode with hnr | ⟨hnr, hwords⟩ | ⟨rfl, hlength⟩
    · exact words_descriptor hnr k pid words
    · obtain ⟨word, rest, rfl⟩ := List.exists_cons_of_ne_nil hwords
      rcases hnr with rfl | rfl | rfl | rfl | rfl | rfl | rfl | rfl
      · exact words_openat h.three_le pid word rest
      · exact words_mmap k pid word rest
      · have hcall : k.callHandler pid 11 ((word :: rest).map Value.str) =
            k.returns (-EINVAL) := rfl
        rw [hcall]
        simp [WordsReturn, WordsAnswer, errorCodes]
      · have hcall : k.callHandler pid 12 ((word :: rest).map Value.str) =
            k.raises .typeError := rfl
        rw [hcall]
        simp [WordsReturn, WordsAnswer]
      · have hcall : k.callHandler pid 35 ((word :: rest).map Value.str) =
            k.returns 0 := rfl
        rw [hcall]
        simp [WordsReturn, WordsAnswer, not_mem_errorCodes]
      · have hcall : k.callHandler pid 60 ((word :: rest).map Value.str) =
            k.performs pid (.exit 0) := rfl
        rw [hcall, refuses_exit]
        simp [WordsReturn, WordsAnswer]
      · have hcall : k.callHandler pid 61 ((word :: rest).map Value.str) =
            k.performs pid (.wait4 (-1) 0) := rfl
        rw [hcall, refuses_wait4 h.pids]
        simp [WordsReturn, WordsAnswer]
      · have hcall : k.callHandler pid 62 ((word :: rest).map Value.str) =
            k.returns (-ESRCH) := rfl
        rw [hcall]
        simp [WordsReturn, WordsAnswer, errorCodes]
    · obtain ⟨word, rest, rfl⟩ := List.exists_cons_of_length_pos (by omega : 0 < words.length)
      have hcall : k.callHandler pid 59 ((word :: rest).map Value.str) =
          k.performs pid (.execve word none none) := rfl
      have hnot : ¬ (word :: rest).length ≤ 1 := by omega
      rw [hcall, refuses_execve]
      simp only [WordsReturn, WordsAnswer, hnot]
      simp
  · have hanswers : Answers nr (words.map Value.str)
        (k.callHandler pid nr (words.map Value.str)) := answers_of_decode hdecode
    rw [decode_words] at hdecode
    have hreturn : k.WordsReturn pid nr words := by
      unfold WordsReturn
      grind
    have hanswer : k.WordsAnswer pid nr words := by
      refine ⟨hreturn, ?_⟩
      grind
    exact ⟨iff_of_true hanswers.returns hreturn, iff_of_true hanswers hanswer⟩

/-! ## Reachable states -/

theorem doSyscall_fst (k : KernelState) (pid nr : Int) (words : List Str) :
    (k.doSyscall pid nr words).1 =
      ({ k with brk := Dict.empty }.dispatchValues pid nr (words.map Value.str)).1 := by
  rw [doSyscall]

/-- In every reachable state, the calls with which the dispatcher returns, and those that it
answers as it should, are the ones described above, in both conventions. -/
theorem conventions_iff (events : List Event) :
    let k := run handle boot events
    (∀ ctx : SyscallContext,
      (Returns (k.dispatchContext ctx) ↔ ctx.Loggable ∧ k.ContextReturns ctx) ∧
      (Answers ctx.nr ctx.args (k.dispatchContext ctx) ↔ ctx.Loggable ∧ k.ContextAnswers ctx)) ∧
    ∀ (pid nr : Int) (words : List Str),
      (Returns (k.doSyscall pid nr words) ↔
        (HasText pid ∧ HasText nr) ∧ k.WordsReturn pid nr words) ∧
      (Answers nr (words.map Value.str) (k.doSyscall pid nr words) ↔
        (HasText pid ∧ HasText nr) ∧ k.WordsAnswer pid nr words) := by
  intro k
  have h : Sane k := sane_run events
  constructor
  · intro ctx
    obtain ⟨hreturns, hanswers⟩ := context_iff h ctx
    exact ⟨returns_dispatchValues.trans (and_congr Iff.rfl hreturns),
      answers_dispatchValues.trans (and_congr Iff.rfl hanswers)⟩
  · intro pid nr words
    obtain ⟨hreturns, hanswers⟩ := words_iff (h.withBrk Dict.empty) pid nr words
    unfold Returns Answers
    rw [doSyscall_fst]
    exact ⟨returns_dispatchValues.trans (and_congr (loggable_words pid nr words) hreturns),
      answers_dispatchValues.trans (and_congr (loggable_words pid nr words) hanswers)⟩

/-- A register as path, a word as break, a word as exit code, and a register that is not
even used but too long for the log. -/
theorem registers_and_words_raise :
    let ctx : SyscallContext := { nr := 2, rsi := 1, pid := 2 }
    let long : SyscallContext := { nr := 39, rdi := 10 ^ 5000, pid := 2 }
    (boot.dispatchContext ctx).1 = .error .attributeError ∧
    (boot.dispatchContext long).1 = .error .valueError ∧
    (boot.doSyscall 2 12 ["0x700000".toList]).1 = .error .typeError ∧
    (boot.doSyscall 2 60 ["1".toList]).1 = .ok 0 ∧
    ¬ Answers 2 ctx.args (boot.dispatchContext ctx) ∧
    ¬ Answers 60 [.str "1".toList] (boot.doSyscall 2 60 ["1".toList]) := by
  intro ctx long
  have hmounts : boot.vfs.mounts ≠ [] := by
    change bootVfs.mounts ≠ []
    rw [mounts_bootVfs]
    exact List.cons_ne_nil _ _
  have hraise : (boot.dispatchContext ctx).1 = .error .attributeError := by
    have hlog : ctx.Loggable := by decide +kernel
    rw [dispatchContext, dispatchValues_of_loggable hlog]
    change (if boot.vfs.mounts = [] then boot.returns (-ENOENT)
      else boot.raises .attributeError).1 = _
    rw [if_neg hmounts]
    rfl
  have hlong : (boot.dispatchContext long).1 = .error .valueError := by
    have hlog : ¬ long.Loggable := by decide +kernel
    rw [dispatchContext, dispatchValues_of_not_loggable hlog]
    rfl
  have hwords : ∀ nr ∈ syscallTable, ∀ words : List Str, (boot.doSyscall 2 nr words).1 =
      ({ boot with brk := Dict.empty }.callHandler 2 nr (words.map Value.str)).1 := by
    intro nr hnr words
    have hlog : HasText 2 ∧ HasText nr := by
      revert nr
      decide +kernel
    rw [doSyscall_fst, dispatchValues_of_loggable ((loggable_words 2 nr words).mpr hlog)]
  have hexit : (boot.doSyscall 2 60 ["1".toList]).1 = .ok 0 := by
    rw [hwords 60 (by decide)]
    rfl
  refine ⟨hraise, hlong, ?_, hexit, ?_, ?_⟩
  · rw [hwords 12 (by decide)]
    rfl
  · rintro ⟨r, hr, -⟩
    rw [hraise] at hr
    cases hr
  · rintro ⟨r, hr, hcode⟩
    rw [hexit] at hr
    cases hr
    exact absurd (hcode rfl) (by decide)

end ComputeKernel.Kernel.KernelState
