/-
  MierOS.Tasking.Syscalls — the values system calls return: the handlers of
  `process.cpp`, `streams.cpp`, `memory.cpp` and `kernel.cpp` that
  `init_syscalls` registers, and `Process::execve` up to "no return part".

  A handler turns the `ValueOrError` results of what it calls into a
  `syscall_arg_t` by hand.  What it calls may answer ANYTHING here: the record
  `Kernel` holds one arbitrary function for each callee, and the descriptor
  table is that of `Tasking.Descriptors`.

  Main results: `minus_not_success`, `Fails.returned`, `errors_returned_iff`.
-/
import MierOS.Fs.Vfs
import MierOS.Tasking.Descriptors

namespace MierOS.Tasking.Syscalls

open Fs Stdlib

/-! ## §1. Values and errors. -/

/-- `syscall_arg_t`, that is `u64_t`. -/
abbrev Arg := BitVec 64

/-- `pid_t`, that is `u32_t`. -/
abbrev Pid := BitVec 32

/-- An `err_t` that reports an error.  `0` means success and the codes of
`errno.h` are positive `int`s. -/
structure ErrT where
  value : Nat
  pos : 0 < value
  lt : value < 2147483648
  deriving Repr, DecidableEq

namespace ErrT

/-- `(err_t) value`. -/
def code (value : Nat) (h : 0 < value ∧ value < 2147483648) : ErrT := ⟨value, h.1, h.2⟩

def ENOTDIR : ErrT := code 3 (by decide)
def ENOEXEC : ErrT := code 6 (by decide)
def ECHILD : ErrT := code 18 (by decide)
def EBADF : ErrT := code 20 (by decide)
def EINVAL : ErrT := code 22 (by decide)
def EPIPE : ErrT := code 25 (by decide)
def EFAULT : ErrT := code 26 (by decide)
def ELOOP : ErrT := code 104 (by decide)

/-- The code of `errno.h`. -/
def ofErrno : Errno → ErrT
  | .ENOENT => code 2 (by decide)
  | .ENOTDIR => ENOTDIR
  | .EEXIST => code 4 (by decide)
  | .ENOEXEC => ENOEXEC
  | .ENOMEM => code 12 (by decide)
  | .EBADF => EBADF
  | .EPIPE => EPIPE
  | .ENOTSUP => code 17 (by decide)
  | .ENOLINK => code 58 (by decide)
  | .ELOOP => ELOOP
  | _ => code 9 (by decide)  -- the one code left, for I/O errors

/-- `err_t::operator int()`. -/
def toInt32 (e : ErrT) : BitVec 32 := BitVec.ofNat 32 e.value

end ErrT

/-- An `int` as a `syscall_arg_t`. -/
def ofInt32 (v : BitVec 32) : Arg := v.signExtend 64

/-- What becomes of a call.  `nullStream` is a use of the null pointer that
`get_stream` gave. -/
inductive Outcome where
  | returns (value : Arg)
  | noReturn
  | nullStream
  deriving Repr, DecidableEq

/-- `return -e;` -/
def returnErrno (e : ErrT) : Outcome := .returns (ofInt32 (-e.toInt32))

/-- `result ? *result : -result.errno()`, both sides an `int`. -/
def valueOr (result : Except ErrT (BitVec 32)) : BitVec 32 :=
  match result with
  | .ok value => value
  | .error e => -e.toInt32

/-- `result ? 0 : -result.errno()`. -/
def zeroOr {T : Type} (result : Except ErrT T) : BitVec 32 :=
  match result with
  | .ok _ => 0
  | .error e => -e.toInt32

/-- `ValueOrError::operator bool()`. -/
def isOk {T : Type} (result : Except ErrT T) : Bool :=
  match result with
  | .ok _ => true
  | .error _ => false

/-- `*result`, with no test of `result`: for an error it reads the storage that
was never written. -/
def deref (result : Except ErrT Arg) (storage : Arg) : Arg :=
  match result with
  | .ok value => value
  | .error _ => storage

/-- An argument passed as a `fd_t`. -/
def fdOfArg (a : Arg) : Fd :=
  ⟨(a.setWidth 32).toInt, by have := BitVec.le_toInt (a.setWidth 32); simpa using this,
    by have := BitVec.toInt_lt (x := a.setWidth 32); simpa using this⟩

/-- A `fd_t` as an `int`. -/
def fdToInt32 (fd : Fd) : BitVec 32 := BitVec.ofInt 32 fd.val

/-- `KERNEL_START`. -/
def kernelStart : Arg := 0xFFFFFFFF80000000

/-- `MMAP_MIN_ADDR`. -/
def mmapMinAddr : Arg := 0x100000

/-- `VALIDATE_PTR(addr)` returns. -/
def InvalidPtr (addr : Arg) : Prop := addr = 0 ∨ kernelStart ≤ addr

instance (addr : Arg) : Decidable (InvalidPtr addr) :=
  inferInstanceAs (Decidable (_ ∨ _))

/-! ## §2. What the handlers call. -/

/-- A stream with its virtual functions; `node` is for file streams. -/
structure Stream (N : Type) where
  type : Nat
  node : N
  read : Arg → Arg → Except ErrT Arg
  write : Arg → Arg → Except ErrT Arg
  seek : Arg → BitVec 32 → Except ErrT Arg
  ioctl : Arg → Arg → Except ErrT (BitVec 32)

/-- `STREAM_TYPE_FILE`. -/
def streamTypeFile : Nat := 1

/-- A file as `Process::execve` reads it: the results of `open`, of the read of
the header, of the seek to the program headers and of their read, the fields of
the header, and the storage of a result that is an error. -/
structure ExecFile where
  openResult : Except ErrT Unit
  header : Except ErrT Arg
  validElf : Bool
  type : BitVec 16
  phdrEntryCount : BitVec 16
  seekResult : Except ErrT Arg
  programHeaders : Except ErrT Arg
  storage : Arg

/-- The thread `Thread::get` finds: `is_main()` and `pid()`. -/
structure WaitedThread where
  isMain : Bool
  pid : Pid
  deriving Repr, DecidableEq

/-- The process, the memory it passes strings in, and everything the handlers
call.  `dies` says that the calling thread is one of the process, so that
`die()` does not return; `freed` is what `dup_stream` finds in an entry it
erased.  `get_free_addr` gives an address its loop tested or `0`. -/
structure Kernel (N : Type) where
  cwd : Path
  streams : FdTable (Stream N)
  hash : Fd → Nat
  freed : Stream N
  mainPid : Pid
  currentPid : Pid
  dies : Bool
  childPid : Pid
  thread : Pid → Option WaitedThread
  cstr : Arg → Path
  type : N → VNodeType
  getFile : Option N → Path → FilesystemFlags → Except ErrT N
  resolvePath : Option N → Path → FilesystemFlags → Except ErrT (N × Path)
  symlink : N → Path → Path → Except ErrT N
  mount : Option N → Path → Path → Except ErrT Unit
  umount : Path → Except ErrT Unit
  fileStream : N → Stream N
  openFile : N → BitVec 32 → Except ErrT Unit
  directoryStream : N → Stream N
  openDirectory : N → Except ErrT Unit
  pipePair : Stream N × Stream N
  execFile : N → ExecFile
  loadModule : Arg → Arg → Except ErrT (BitVec 16)
  getFreeAddr : Arg → Arg → { addr : Arg // addr < kernelStart }

/-! ## §3. The handlers. -/

/-- `Process::execve`, the checks before its "no return part". -/
def ExecFile.execve (f : ExecFile) : Except ErrT Unit :=
  match f.openResult with
  | .error e => .error e
  | .ok () =>
      -- `*stream.read(..)`: neither result of `read` is tested for an error
      if deref f.header f.storage ≠ 64 then .error .ENOEXEC
      else if ¬ f.validElf then .error .ENOEXEC
      else if f.type ≠ 2 ∧ f.type ≠ 3 then .error .ENOEXEC
      -- the result of `seek` is dropped
      else if deref f.programHeaders f.storage ≠ f.phdrEntryCount.setWidth 64 * 56 then
        .error .ENOEXEC
      else .ok ()

section Handlers

variable {N : Type} (k : Kernel N)

namespace Kernel

/-- `get_stream(fd)`. -/
def getStream (fd : Arg) : Option (Stream N) := k.streams.streams.at k.hash (fdOfArg fd)

/-- `get_file` of an absolute path, or of one below the working directory. -/
def lookup (path : Path) : Except ErrT N :=
  if path.head? = some '/' then k.getFile none path ⟨false, false⟩
  else k.getFile none (k.cwd ++ path) ⟨false, false⟩

/-- Where `openat` and `symlinkat` resolve a path from: `none` where they
`return -EBADF`. -/
def resolveFrom (path : Path) (dirfd : Arg) : Option (Option N × Path) :=
  if path.head? ≠ some '/' then
    if fdOfArg dirfd = Fd.none then some (none, k.cwd ++ path)
    else
      match k.getStream dirfd with
      | none => none
      | some stream =>
          if stream.type ≠ streamTypeFile then none else some (some stream.node, path)
  else some (none, path)

/-- `add_stream(stream)`, the last thing `openat` does. -/
def returnStream (stream : Stream N) : Outcome :=
  match k.streams.addStream k.hash stream Fd.none with
  | none => .noReturn
  | some (fd, _) => .returns (ofInt32 (fdToInt32 fd))

end Kernel

/-- `DEF_SYSCALL(exit, exitCode)`. -/
def syscallExit (_exitCode : Arg) : Outcome := if k.dies then .noReturn else .returns 0

/-- `DEF_SYSCALL(fork)`. -/
def syscallFork : Outcome := .returns (k.childPid.setWidth 64)

/-- `DEF_SYSCALL(execve, filename, argv, envp)`.  `proc.execve(..)` is converted
by its `operator bool()`. -/
def syscallExecve (filename _argv _envp : Arg) : Outcome :=
  match k.lookup (k.cstr filename) with
  | .error e => returnErrno e
  | .ok file => .returns (if isOk (k.execFile file).execve then 1 else 0)

/-- `DEF_SYSCALL(getid, id)`. -/
def syscallGetid (id : Arg) : Outcome :=
  if id = 0 then .returns (k.mainPid.setWidth 64)
  else if id = 1 then .returns (k.currentPid.setWidth 64)
  else returnErrno .EINVAL

/-- `DEF_SYSCALL(waitpid, pid, status, options)`. -/
def syscallWaitpid (pid status _options : Arg) : Outcome :=
  match k.thread (pid.setWidth 32) with
  | none => .returns (ofInt32 ErrT.ECHILD.toInt32)  -- `return ECHILD;`, no sign
  | some thread =>
      if ¬ thread.isMain then .returns (ofInt32 ErrT.EINVAL.toInt32)  -- `return EINVAL;`
      else if status ≠ 0 ∧ InvalidPtr status then returnErrno .EFAULT
      else .returns (thread.pid.setWidth 64)

/-- `DEF_SYSCALL(openat, name, flags, mode, dirfd)`, with `O_NOFOLLOW`,
`O_DIRECTORY` and `O_PATH` of `flags`. -/
def syscallOpenat (name flags mode dirfd : Arg) : Outcome :=
  match k.resolveFrom (k.cstr name) dirfd with
  | none => returnErrno .EBADF
  | some (root, path) =>
      let followLink := flags &&& 0x100 = 0
      match k.getFile root path ⟨followLink, true⟩ with
      | .error e => returnErrno e
      | .ok file =>
          if ¬ followLink ∧ k.type file = .LINK then returnErrno .ELOOP
          else if flags &&& 0x20 ≠ 0 then
            if k.type file ≠ .DIRECTORY then returnErrno .ENOTDIR
            else if flags &&& 0x8000 = 0 then
              match k.openDirectory file with
              | .error e => returnErrno e
              | .ok () => k.returnStream (k.directoryStream file)
            else k.returnStream (k.directoryStream file)
          else if flags &&& 0x8000 = 0 then
            match k.openFile file (mode.setWidth 32) with
            | .error e => returnErrno e
            | .ok () => k.returnStream (k.fileStream file)
          else k.returnStream (k.fileStream file)

/-- `DEF_SYSCALL(close, fd)`. -/
def syscallClose (_fd : Arg) : Outcome := .returns 0

/-- A call on the stream of a descriptor that answers with a size: the common
body of `read`, `write` and `seek`. -/
def streamCall (fd : Arg) (operation : Stream N → Except ErrT Arg) : Outcome :=
  match k.getStream fd with
  | none => returnErrno .EBADF
  | some stream =>
      match operation stream with
      | .error e => returnErrno e
      | .ok value => .returns value

/-- `DEF_SYSCALL(read, fd, ptr, length)`. -/
def syscallRead (fd ptr length : Arg) : Outcome :=
  streamCall k fd fun stream => stream.read ptr length

/-- `DEF_SYSCALL(write, fd, ptr, length)`. -/
def syscallWrite (fd ptr length : Arg) : Outcome :=
  streamCall k fd fun stream => stream.write ptr length

/-- `DEF_SYSCALL(seek, fd, position, mode)`. -/
def syscallSeek (fd position mode : Arg) : Outcome :=
  streamCall k fd fun stream => stream.seek position (mode.setWidth 32)

/-- `DEF_SYSCALL(ioctl, fd, request, arg)`. -/
def syscallIoctl (fd request arg : Arg) : Outcome :=
  match k.getStream fd with
  | none => returnErrno .EBADF
  | some stream =>
      if stream.type ≠ streamTypeFile then returnErrno .EPIPE
      else .returns (ofInt32 (valueOr (stream.ioctl request arg)))

/-- The result of `dup_stream` as a `ValueOrError<fd_t>`; `none` is a search
for a descriptor that does not end. -/
def Kernel.dupStream (oldfd newfd : Arg) : Option (Except ErrT (BitVec 32)) :=
  match k.streams.dupStream k.hash (fdOfArg oldfd) (fdOfArg newfd) k.freed with
  | none => none
  | some (.error e, _) => some (.error (.ofErrno e))
  | some (.ok fd, _) => some (.ok (fdToInt32 fd))

/-- `DEF_SYSCALL(dup, oldfd, newfd, flags)`. -/
def syscallDup (oldfd newfd _flags : Arg) : Outcome :=
  match k.dupStream oldfd newfd with
  | none => .noReturn
  | some result => .returns (ofInt32 (valueOr result))

/-- `DEF_SYSCALL(symlinkat, target, dirfd, linkpath)`. -/
def syscallSymlinkat (target dirfd linkpath : Arg) : Outcome :=
  if InvalidPtr target then returnErrno .EFAULT
  else if InvalidPtr linkpath then returnErrno .EFAULT
  else
    match k.resolveFrom (k.cstr target) dirfd with
    | none => returnErrno .EBADF
    | some (root, path) =>
        match k.resolvePath root path .all with
        | .error e => returnErrno e
        | .ok (node, name) => .returns (ofInt32 (zeroOr (k.symlink node name (k.cstr linkpath))))

/-- `DEF_SYSCALL(pipe, pipeStorage, flags)`. -/
def syscallPipe (pipeStorage _flags : Arg) : Outcome :=
  if InvalidPtr pipeStorage then returnErrno .EFAULT
  else
    match k.streams.addStream k.hash k.pipePair.1 Fd.none with
    | none => .noReturn
    | some (_, streams) =>
        match streams.addStream k.hash k.pipePair.2 Fd.none with
        | none => .noReturn
        | some _ => .returns 0

/-- `size_t page_len`. -/
def pageLen (length : Arg) : Arg := (length >>> 12) + (if length &&& 0xFFF = 0 then 0 else 1)

/-- `ptr & ~0xFFF`. -/
def pageOf (ptr : Arg) : Arg := ptr &&& 0xFFFFFFFFFFFFF000

/-- The test of `mmap` and `munmap` that some page is not one of the process. -/
def OutsideUser (ptr pages : Arg) : Prop :=
  ptr < mmapMinAddr ∨ kernelStart ≤ ptr ∨ kernelStart < ptr + (pages <<< 12)
    ∨ ptr + (pages <<< 12) < ptr

instance (ptr pages : Arg) : Decidable (OutsideUser ptr pages) :=
  inferInstanceAs (Decidable (_ ∨ _ ∨ _ ∨ _))

/-- `DEF_SYSCALL(mmap, ptr, length, prot, flags, fd, offset)`. -/
def syscallMmap (ptr length prot flags fd offset : Arg) : Outcome :=
  if pageOf ptr ≠ 0 ∧ OutsideUser (pageOf ptr) (pageLen length) then returnErrno .EINVAL
  else
    let addr := k.getFreeAddr (pageOf ptr) (pageLen length)
    -- no page is backed by the file, so the descriptor is not looked at
    if prot = 0 then .returns addr
    else if flags &&& 2 ≠ 0 then .returns addr
    else
      match k.getStream fd with
      | none => .nullStream  -- `stream->type()`, with no null test
      | some stream =>
          if stream.type ≠ streamTypeFile then returnErrno .EBADF
          else if offset &&& 0xFFF ≠ 0 then returnErrno .EINVAL
          else .returns addr

/-- `DEF_SYSCALL(munmap, ptr, length)`. -/
def syscallMunmap (ptr length : Arg) : Outcome :=
  if OutsideUser (pageOf ptr) (pageLen length) then returnErrno .EINVAL else .returns 0

/-- `DEF_SYSCALL(init_module, modPtr, argv)`; the major number is promoted to
`int`. -/
def syscallInitModule (modPtr argv : Arg) : Outcome :=
  if InvalidPtr modPtr then returnErrno .EFAULT
  else .returns (ofInt32 (valueOr ((k.loadModule modPtr argv).map (BitVec.setWidth 32))))

/-- The end of `mount`: `result ? 0 : -result.errno()`. -/
def finishMount (file : Option N) (fsType target : Arg) : Outcome :=
  .returns (ofInt32 (zeroOr (k.mount file (k.cstr fsType) (k.cstr target))))

/-- `DEF_SYSCALL(mount, source, target, fsType, flags, data)`. -/
def syscallMount (source target fsType _flags _data : Arg) : Outcome :=
  if InvalidPtr fsType then returnErrno .EFAULT
  else if InvalidPtr target then returnErrno .EFAULT
  else if source ≠ 0 then
    if InvalidPtr source then returnErrno .EFAULT
    else
      match k.lookup (k.cstr source) with
      | .error e => returnErrno e
      | .ok file => finishMount k (some file) fsType target
  else finishMount k none fsType target

/-- `DEF_SYSCALL(umount, target, flags)`. -/
def syscallUmount (target _flags : Arg) : Outcome :=
  if InvalidPtr target then returnErrno .EFAULT
  else .returns (ofInt32 (zeroOr (k.umount (k.cstr target))))

end Handlers

/-- A registered call with its arguments, in the order of the table. -/
inductive Call where
  | exit (exitCode : Arg)
  | openat (name flags mode dirfd : Arg)
  | close (fd : Arg)
  | read (fd ptr length : Arg)
  | write (fd ptr length : Arg)
  | fork
  | seek (fd position mode : Arg)
  | mmap (ptr length prot flags fd offset : Arg)
  | munmap (ptr length : Arg)
  | execve (filename argv envp : Arg)
  | initModule (modPtr argv : Arg)
  | symlinkat (target dirfd linkpath : Arg)
  | waitpid (pid status options : Arg)
  | ioctl (fd request arg : Arg)
  | getid (id : Arg)
  | dup (oldfd newfd flags : Arg)
  | mount (source target fsType flags data : Arg)
  | umount (target flags : Arg)
  | pipe (pipeStorage flags : Arg)
  deriving Repr, DecidableEq

section Calls

variable {N : Type} (k : Kernel N)

/-- The handler of a call, run. -/
def run : Call → Outcome
  | .exit exitCode => syscallExit k exitCode
  | .openat name flags mode dirfd => syscallOpenat k name flags mode dirfd
  | .close fd => syscallClose fd
  | .read fd ptr length => syscallRead k fd ptr length
  | .write fd ptr length => syscallWrite k fd ptr length
  | .fork => syscallFork k
  | .seek fd position mode => syscallSeek k fd position mode
  | .mmap ptr length prot flags fd offset => syscallMmap k ptr length prot flags fd offset
  | .munmap ptr length => syscallMunmap ptr length
  | .execve filename argv envp => syscallExecve k filename argv envp
  | .initModule modPtr argv => syscallInitModule k modPtr argv
  | .symlinkat target dirfd linkpath => syscallSymlinkat k target dirfd linkpath
  | .waitpid pid status options => syscallWaitpid k pid status options
  | .ioctl fd request arg => syscallIoctl k fd request arg
  | .getid id => syscallGetid k id
  | .dup oldfd newfd flags => syscallDup k oldfd newfd flags
  | .mount source target fsType flags data => syscallMount k source target fsType flags data
  | .umount target flags => syscallUmount k target flags
  | .pipe pipeStorage flags => syscallPipe k pipeStorage flags

end Calls

/-! ## §4. What the values should be. -/

/-- `-e` as a 64-bit value. -/
def minus (e : ErrT) : Arg := BitVec.ofInt 64 (-(e.value : Int))

/-- The values with which a call reports success: `0`, a process or thread id, a
descriptor, a byte count or a position that is not negative, a user address, a
non-negative `int`, a module's major number. -/
def Call.Success (value : Arg) : Call → Prop
  | .fork | .waitpid _ _ _ | .getid _ => value.toNat < 4294967296
  | .openat _ _ _ _ | .dup _ _ _ | .ioctl _ _ _ => value.toNat < 2147483648
  | .read _ _ _ | .write _ _ _ | .seek _ _ _ => value.toNat < 9223372036854775808
  | .mmap _ _ _ _ _ _ => mmapMinAddr ≤ value ∧ value < kernelStart
  | .initModule _ _ => value.toNat < 65536
  | _ => value = 0

namespace ExecFile

/-- `Process::execve` gets past its test of the header. -/
structure HeaderAccepted (f : ExecFile) : Prop where
  openResult : f.openResult = .ok ()
  header : deref f.header f.storage = 64
  validElf : f.validElf = true
  type : f.type = 2 ∨ f.type = 3

/-- Something `Process::execve` does before its "no return part" fails. -/
inductive Fails (f : ExecFile) : ErrT → Prop
  | opening {e : ErrT} (h : f.openResult = .error e) : f.Fails e
  | header {e : ErrT} (hopen : f.openResult = .ok ()) (h : f.header = .error e) : f.Fails e
  | headerShort {n : Arg} (hopen : f.openResult = .ok ()) (h : f.header = .ok n) (hn : n ≠ 64) :
      f.Fails .ENOEXEC
  | invalidElf (hopen : f.openResult = .ok ()) (hheader : deref f.header f.storage = 64)
      (h : f.validElf = false) : f.Fails .ENOEXEC
  | wrongType (hopen : f.openResult = .ok ()) (hheader : deref f.header f.storage = 64)
      (hvalid : f.validElf = true) (h : f.type ≠ 2 ∧ f.type ≠ 3) : f.Fails .ENOEXEC
  | seek {e : ErrT} (hheader : f.HeaderAccepted) (h : f.seekResult = .error e) : f.Fails e
  | programHeaders {e : ErrT} (hheader : f.HeaderAccepted) (h : f.programHeaders = .error e) :
      f.Fails e
  | programHeadersShort {n : Arg} (hheader : f.HeaderAccepted) (h : f.programHeaders = .ok n)
      (hn : n ≠ f.phdrEntryCount.setWidth 64 * 56) : f.Fails .ENOEXEC

/-- The file opens, its header and program headers are found and read in full,
and the header is one of an executable. -/
structure Loads (f : ExecFile) : Prop where
  openResult : f.openResult = .ok ()
  header : f.header = .ok 64
  validElf : f.validElf = true
  type : f.type = 2 ∨ f.type = 3
  seekResult : ∃ position, f.seekResult = .ok position
  programHeaders : f.programHeaders = .ok (f.phdrEntryCount.setWidth 64 * 56)

end ExecFile

section Specification

variable {N : Type} (k : Kernel N)

/-- **A call fails with a code**: an argument is one the handler turns down, or
something the handler calls answers with the code. -/
inductive Fails : Call → ErrT → Prop
  | execveLookup {filename argv envp : Arg} {e : ErrT}
      (h : k.lookup (k.cstr filename) = .error e) : Fails (.execve filename argv envp) e
  | execveFile {filename argv envp : Arg} {file : N} {e : ErrT}
      (hfile : k.lookup (k.cstr filename) = .ok file) (h : (k.execFile file).Fails e) :
      Fails (.execve filename argv envp) e
  | getid {id : Arg} (h₀ : id ≠ 0) (h₁ : id ≠ 1) : Fails (.getid id) .EINVAL
  | waitpidNone {pid status options : Arg} (h : k.thread (pid.setWidth 32) = none) :
      Fails (.waitpid pid status options) .ECHILD
  | waitpidNotMain {pid status options : Arg} {thread : WaitedThread}
      (hthread : k.thread (pid.setWidth 32) = some thread) (h : thread.isMain = false) :
      Fails (.waitpid pid status options) .EINVAL
  | waitpidStatus {pid status options : Arg} {thread : WaitedThread}
      (hthread : k.thread (pid.setWidth 32) = some thread) (hmain : thread.isMain = true)
      (h : status ≠ 0 ∧ InvalidPtr status) : Fails (.waitpid pid status options) .EFAULT
  | openatRoot {name flags mode dirfd : Arg} (h : k.resolveFrom (k.cstr name) dirfd = none) :
      Fails (.openat name flags mode dirfd) .EBADF
  | openatLookup {name flags mode dirfd : Arg} {root : Option N} {path : Path} {e : ErrT}
      (hroot : k.resolveFrom (k.cstr name) dirfd = some (root, path))
      (h : k.getFile root path ⟨flags &&& 0x100 = 0, true⟩ = .error e) :
      Fails (.openat name flags mode dirfd) e
  | openatLink {name flags mode dirfd : Arg} {root : Option N} {path : Path} {file : N}
      (hroot : k.resolveFrom (k.cstr name) dirfd = some (root, path))
      (hfile : k.getFile root path ⟨flags &&& 0x100 = 0, true⟩ = .ok file)
      (h : flags &&& 0x100 ≠ 0 ∧ k.type file = .LINK) :
      Fails (.openat name flags mode dirfd) .ELOOP
  | openatNotDirectory {name flags mode dirfd : Arg} {root : Option N} {path : Path} {file : N}
      (hroot : k.resolveFrom (k.cstr name) dirfd = some (root, path))
      (hfile : k.getFile root path ⟨flags &&& 0x100 = 0, true⟩ = .ok file)
      (hlink : ¬ (flags &&& 0x100 ≠ 0 ∧ k.type file = .LINK))
      (h : flags &&& 0x20 ≠ 0 ∧ k.type file ≠ .DIRECTORY) :
      Fails (.openat name flags mode dirfd) .ENOTDIR
  | openatDirectory {name flags mode dirfd : Arg} {root : Option N} {path : Path} {file : N}
      {e : ErrT} (hroot : k.resolveFrom (k.cstr name) dirfd = some (root, path))
      (hfile : k.getFile root path ⟨flags &&& 0x100 = 0, true⟩ = .ok file)
      (hdir : flags &&& 0x20 ≠ 0 ∧ k.type file = .DIRECTORY) (hopens : flags &&& 0x8000 = 0)
      (h : k.openDirectory file = .error e) : Fails (.openat name flags mode dirfd) e
  | openatFile {name flags mode dirfd : Arg} {root : Option N} {path : Path} {file : N}
      {e : ErrT} (hroot : k.resolveFrom (k.cstr name) dirfd = some (root, path))
      (hfile : k.getFile root path ⟨flags &&& 0x100 = 0, true⟩ = .ok file)
      (hlink : ¬ (flags &&& 0x100 ≠ 0 ∧ k.type file = .LINK))
      (hdir : flags &&& 0x20 = 0) (hopens : flags &&& 0x8000 = 0)
      (h : k.openFile file (mode.setWidth 32) = .error e) :
      Fails (.openat name flags mode dirfd) e
  | read {fd ptr length : Arg} {stream : Stream N} {e : ErrT} (hfd : k.getStream fd = some stream)
      (h : stream.read ptr length = .error e) : Fails (.read fd ptr length) e
  | write {fd ptr length : Arg} {stream : Stream N} {e : ErrT}
      (hfd : k.getStream fd = some stream) (h : stream.write ptr length = .error e) :
      Fails (.write fd ptr length) e
  | seek {fd position mode : Arg} {stream : Stream N} {e : ErrT}
      (hfd : k.getStream fd = some stream)
      (h : stream.seek position (mode.setWidth 32) = .error e) : Fails (.seek fd position mode) e
  | ioctlType {fd request arg : Arg} {stream : Stream N} (hfd : k.getStream fd = some stream)
      (h : stream.type ≠ streamTypeFile) : Fails (.ioctl fd request arg) .EPIPE
  | ioctl {fd request arg : Arg} {stream : Stream N} {e : ErrT}
      (hfd : k.getStream fd = some stream) (htype : stream.type = streamTypeFile)
      (h : stream.ioctl request arg = .error e) : Fails (.ioctl fd request arg) e
  | dup {oldfd newfd flags : Arg} {e : ErrT} (h : k.dupStream oldfd newfd = some (.error e)) :
      Fails (.dup oldfd newfd flags) e
  | symlinkatPtr {target dirfd linkpath : Arg} (h : InvalidPtr target ∨ InvalidPtr linkpath) :
      Fails (.symlinkat target dirfd linkpath) .EFAULT
  | symlinkatRoot {target dirfd linkpath : Arg} (htarget : ¬ InvalidPtr target)
      (hlink : ¬ InvalidPtr linkpath) (h : k.resolveFrom (k.cstr target) dirfd = none) :
      Fails (.symlinkat target dirfd linkpath) .EBADF
  | symlinkatResolve {target dirfd linkpath : Arg} {root : Option N} {path : Path} {e : ErrT}
      (htarget : ¬ InvalidPtr target) (hlink : ¬ InvalidPtr linkpath)
      (hroot : k.resolveFrom (k.cstr target) dirfd = some (root, path))
      (h : k.resolvePath root path .all = .error e) : Fails (.symlinkat target dirfd linkpath) e
  | symlinkat {target dirfd linkpath : Arg} {root : Option N} {path name : Path} {node : N}
      {e : ErrT} (htarget : ¬ InvalidPtr target) (hlink : ¬ InvalidPtr linkpath)
      (hroot : k.resolveFrom (k.cstr target) dirfd = some (root, path))
      (hnode : k.resolvePath root path .all = .ok (node, name))
      (h : k.symlink node name (k.cstr linkpath) = .error e) :
      Fails (.symlinkat target dirfd linkpath) e
  | pipe {pipeStorage flags : Arg} (h : InvalidPtr pipeStorage) :
      Fails (.pipe pipeStorage flags) .EFAULT
  | mmapRange {ptr length prot flags fd offset : Arg}
      (h : pageOf ptr ≠ 0 ∧ OutsideUser (pageOf ptr) (pageLen length)) :
      Fails (.mmap ptr length prot flags fd offset) .EINVAL
  | mmapType {ptr length prot flags fd offset : Arg} {stream : Stream N}
      (hrange : ¬ (pageOf ptr ≠ 0 ∧ OutsideUser (pageOf ptr) (pageLen length)))
      (hprot : prot ≠ 0) (hfile : flags &&& 2 = 0) (hfd : k.getStream fd = some stream)
      (h : stream.type ≠ streamTypeFile) : Fails (.mmap ptr length prot flags fd offset) .EBADF
  | mmapOffset {ptr length prot flags fd offset : Arg} {stream : Stream N}
      (hrange : ¬ (pageOf ptr ≠ 0 ∧ OutsideUser (pageOf ptr) (pageLen length)))
      (hprot : prot ≠ 0) (hfile : flags &&& 2 = 0) (hfd : k.getStream fd = some stream)
      (htype : stream.type = streamTypeFile) (h : offset &&& 0xFFF ≠ 0) :
      Fails (.mmap ptr length prot flags fd offset) .EINVAL
  | munmap {ptr length : Arg} (h : OutsideUser (pageOf ptr) (pageLen length)) :
      Fails (.munmap ptr length) .EINVAL
  | initModulePtr {modPtr argv : Arg} (h : InvalidPtr modPtr) :
      Fails (.initModule modPtr argv) .EFAULT
  | initModule {modPtr argv : Arg} {e : ErrT} (hptr : ¬ InvalidPtr modPtr)
      (h : k.loadModule modPtr argv = .error e) : Fails (.initModule modPtr argv) e
  | mountPtr {source target fsType flags data : Arg}
      (h : InvalidPtr fsType ∨ InvalidPtr target ∨ (source ≠ 0 ∧ InvalidPtr source)) :
      Fails (.mount source target fsType flags data) .EFAULT
  | mountLookup {source target fsType flags data : Arg} {e : ErrT} (htype : ¬ InvalidPtr fsType)
      (htarget : ¬ InvalidPtr target) (hsource : source ≠ 0 ∧ ¬ InvalidPtr source)
      (h : k.lookup (k.cstr source) = .error e) : Fails (.mount source target fsType flags data) e
  | mountFile {source target fsType flags data : Arg} {file : N} {e : ErrT}
      (htype : ¬ InvalidPtr fsType) (htarget : ¬ InvalidPtr target)
      (hsource : source ≠ 0 ∧ ¬ InvalidPtr source) (hfile : k.lookup (k.cstr source) = .ok file)
      (h : k.mount (some file) (k.cstr fsType) (k.cstr target) = .error e) :
      Fails (.mount source target fsType flags data) e
  | mountNull {source target fsType flags data : Arg} {e : ErrT} (htype : ¬ InvalidPtr fsType)
      (htarget : ¬ InvalidPtr target) (hsource : source = 0)
      (h : k.mount none (k.cstr fsType) (k.cstr target) = .error e) :
      Fails (.mount source target fsType flags data) e
  | umountPtr {target flags : Arg} (h : InvalidPtr target) : Fails (.umount target flags) .EFAULT
  | umount {target flags : Arg} {e : ErrT} (htarget : ¬ InvalidPtr target)
      (h : k.umount (k.cstr target) = .error e) : Fails (.umount target flags) e

/-- **The descriptor a call works on is not open.**  `mmap` works on one unless
the mapping is anonymous. -/
def NotOpen : Call → Prop
  | .read fd _ _ | .write fd _ _ | .seek fd _ _ | .ioctl fd _ _ | .dup fd _ _ =>
      k.getStream fd = none
  | .mmap _ _ _ flags fd _ => flags &&& 2 = 0 ∧ k.getStream fd = none
  | _ => False

/-- **Error fidelity of a call**: a failure with code `e` returns `-e`, a closed
descriptor returns `-EBADF`, and neither returns a success value. -/
structure ErrorsReturned (c : Call) : Prop where
  fails : ∀ e, Fails k c e → run k c = .returns (minus e)
  notOpen : NotOpen k c → run k c = .returns (minus .EBADF)
  distinct : (∃ e, Fails k c e) ∨ NotOpen k c →
    ∀ value, run k c = .returns value → ¬ c.Success value

/-- **The condition**: a file `execve` finds also loads, `waitpid` names a main
thread that is there, and the descriptor of a mapping that is not anonymous is
open. -/
def Meets : Call → Prop
  | .execve filename _ _ => ∀ file, k.lookup (k.cstr filename) = .ok file → (k.execFile file).Loads
  | .waitpid pid _ _ => ∃ thread, k.thread (pid.setWidth 32) = some thread ∧ thread.isMain = true
  | .mmap _ _ _ flags fd _ => flags &&& 2 = 0 → k.getStream fd ≠ none
  | _ => True

end Specification

/-! ## §5. Error values. -/

theorem neg_toInt32_toInt (e : ErrT) : (-e.toInt32).toInt = -(e.value : Int) := by
  have hlt := e.lt
  have hpos := e.pos
  have hnat : (-e.toInt32).toNat = 4294967296 - e.value := by
    unfold ErrT.toInt32
    rw [BitVec.toNat_neg, BitVec.toNat_ofNat]
    omega
  rw [BitVec.toInt_eq_toNat_cond, hnat]
  omega

/-- The negated `int`, sign-extended, is the 64-bit `-e`. -/
@[simp] theorem ofInt32_neg (e : ErrT) : ofInt32 (-e.toInt32) = minus e := by
  unfold ofInt32 minus
  rw [BitVec.signExtend, neg_toInt32_toInt]

@[simp] theorem returnErrno_eq (e : ErrT) : returnErrno e = .returns (minus e) := by
  rw [returnErrno, ofInt32_neg]

@[simp] theorem valueOr_error (e : ErrT) : valueOr (.error e) = -e.toInt32 := rfl

@[simp] theorem zeroOr_error {T : Type} (e : ErrT) :
    zeroOr (.error e : Except ErrT T) = -e.toInt32 := rfl

theorem minus_toNat (e : ErrT) : (minus e).toNat = 18446744073709551616 - e.value := by
  have hlt := e.lt
  have hpos := e.pos
  unfold minus
  rw [BitVec.toNat_ofInt]
  omega

/-- `-e` lies above every user address. -/
theorem kernelStart_lt_minus (e : ErrT) : kernelStart < minus e := by
  have hlt := e.lt
  rw [BitVec.lt_def, minus_toNat]
  unfold kernelStart
  simp
  omega

theorem minus_injective {e e' : ErrT} (h : minus e = minus e') : e = e' := by
  have hnat := congrArg BitVec.toNat h
  rw [minus_toNat, minus_toNat] at hnat
  have hlt := e.lt
  have hlt' := e'.lt
  obtain ⟨value, pos, lt⟩ := e
  obtain ⟨value', pos', lt'⟩ := e'
  have hvalue : value = value' := by
    simp only at hnat hlt hlt'
    omega
  subst hvalue
  rfl

/-- **No call reports success with `-e`.** -/
theorem minus_not_success (e : ErrT) (c : Call) : ¬ c.Success (minus e) := by
  have hnat := minus_toNat e
  have hlt := e.lt
  have hne : minus e ≠ 0 := by
    intro h
    rw [h] at hnat
    have hzero : (0 : Arg).toNat = 0 := rfl
    omega
  cases c with
  | mmap ptr length prot flags fd offset =>
      intro ⟨_, habove⟩
      have hbelow := kernelStart_lt_minus e
      rw [BitVec.lt_def] at habove hbelow
      omega
  | fork | waitpid | getid | openat | dup | ioctl | read | write | seek | initModule =>
      unfold Call.Success
      omega
  | exit | close | munmap | execve | symlinkat | mount | umount | pipe => exact hne

/-! ## §6. Failing calls. -/

section Handlers

variable {N : Type} {k : Kernel N}

/-- `Process::execve` reads the file, or something on the way fails. -/
theorem ExecFile.loads_or_fails (f : ExecFile) : f.Loads ∨ ∃ e, f.Fails e := by
  cases hopen : f.openResult with
  | error e => exact Or.inr ⟨e, .opening hopen⟩
  | ok u =>
      cases hheader : f.header with
      | error e => exact Or.inr ⟨e, .header hopen hheader⟩
      | ok n =>
          by_cases hn : n = 64
          · subst hn
            have hderef : deref f.header f.storage = 64 := by rw [hheader]; rfl
            cases hvalid : f.validElf with
            | false => exact Or.inr ⟨_, .invalidElf hopen hderef hvalid⟩
            | true =>
                by_cases htype : f.type = 2 ∨ f.type = 3
                · have hacc : f.HeaderAccepted := ⟨hopen, hderef, hvalid, htype⟩
                  cases hseek : f.seekResult with
                  | error e => exact Or.inr ⟨e, .seek hacc hseek⟩
                  | ok position =>
                      cases hph : f.programHeaders with
                      | error e => exact Or.inr ⟨e, .programHeaders hacc hph⟩
                      | ok n =>
                          by_cases hn : n = f.phdrEntryCount.setWidth 64 * 56
                          · subst hn
                            exact Or.inl ⟨hopen, hheader, hvalid, htype, ⟨position, hseek⟩, hph⟩
                          · exact Or.inr ⟨_, .programHeadersShort hacc hph hn⟩
                · exact Or.inr ⟨_, .wrongType hopen hderef hvalid (not_or.mp htype)⟩
          · exact Or.inr ⟨_, .headerShort hopen hheader hn⟩

theorem ExecFile.Loads.not_fails {f : ExecFile} (h : f.Loads) (e : ErrT) : ¬ f.Fails e := by
  obtain ⟨position, hseek⟩ := h.seekResult
  intro hfails
  cases hfails with
  | opening ho => simp [h.openResult] at ho
  | header _ hh => simp [h.header] at hh
  | headerShort _ hh hn =>
      rw [h.header] at hh
      injection hh with hh
      exact hn hh.symm
  | invalidElf _ _ hv => simp [h.validElf] at hv
  | wrongType _ _ _ ht =>
      cases h.type with
      | inl h2 => exact ht.1 h2
      | inr h3 => exact ht.2 h3
  | seek _ hs => simp [hseek] at hs
  | programHeaders _ hp => simp [h.programHeaders] at hp
  | programHeadersShort _ hp hn =>
      rw [h.programHeaders] at hp
      injection hp with hp
      exact hn hp.symm

/-- **A failing call returns `-e`** when it meets the condition. -/
theorem Fails.returned {c : Call} {e : ErrT} (h : Fails k c e) (hmeets : Meets k c) :
    run k c = .returns (minus e) := by
  cases h with
  | execveLookup h => simp only [run, syscallExecve, h, returnErrno_eq]
  | execveFile hfile h => exact absurd h ((hmeets _ hfile).not_fails e)
  | getid h₀ h₁ => simp only [run, syscallGetid, if_neg h₀, if_neg h₁, returnErrno_eq]
  | waitpidNone h =>
      obtain ⟨thread, hthread, _⟩ := hmeets
      rw [h] at hthread
      exact absurd hthread (by simp)
  | waitpidNotMain hthread h =>
      obtain ⟨thread, hthread', hmain⟩ := hmeets
      rw [hthread, Option.some_inj] at hthread'
      rw [← hthread', h] at hmain
      exact absurd hmain (by simp)
  | waitpidStatus hthread hmain h =>
      simp only [run, syscallWaitpid, hthread, hmain, not_true, if_false, if_pos h, returnErrno_eq]
  | openatRoot h => simp only [run, syscallOpenat, h, returnErrno_eq]
  | openatLookup hroot h => simp only [run, syscallOpenat, hroot, h, returnErrno_eq]
  | openatLink hroot hfile h =>
      simp only [run, syscallOpenat, hroot, hfile, returnErrno_eq]
      rw [if_pos h]
  | openatNotDirectory hroot hfile hlink h =>
      simp only [run, syscallOpenat, hroot, hfile, returnErrno_eq]
      rw [if_neg hlink, if_pos h.1, if_pos h.2]
  | @openatDirectory name flags mode dirfd root path file e hroot hfile hdir hopens h =>
      have hlink : ¬ (flags &&& 0x100 ≠ 0 ∧ k.type file = .LINK) := by
        -- a directory is no link
        rw [hdir.2]
        exact fun hlink => absurd hlink.2 (by decide)
      simp only [run, syscallOpenat, hroot, hfile, h, returnErrno_eq]
      rw [if_neg hlink, if_pos hdir.1, if_neg (not_not.mpr hdir.2), if_pos hopens]
  | openatFile hroot hfile hlink hdir hopens h =>
      simp only [run, syscallOpenat, hroot, hfile, h, returnErrno_eq]
      rw [if_neg hlink, if_neg (not_not.mpr hdir), if_pos hopens]
  | read hfd h => simp only [run, syscallRead, streamCall, hfd, h, returnErrno_eq]
  | write hfd h => simp only [run, syscallWrite, streamCall, hfd, h, returnErrno_eq]
  | seek hfd h => simp only [run, syscallSeek, streamCall, hfd, h, returnErrno_eq]
  | ioctlType hfd h => simp only [run, syscallIoctl, hfd, if_pos h, returnErrno_eq]
  | ioctl hfd htype h =>
      simp only [run, syscallIoctl, hfd, if_neg (not_not.mpr htype), h, valueOr_error, ofInt32_neg]
  | dup h => simp only [run, syscallDup, h, valueOr_error, ofInt32_neg]
  | @symlinkatPtr target dirfd linkpath h =>
      simp only [run, syscallSymlinkat, returnErrno_eq]
      by_cases htarget : InvalidPtr target
      · rw [if_pos htarget]
      · rw [if_neg htarget, if_pos (h.resolve_left htarget)]
  | symlinkatRoot htarget hlink h =>
      simp only [run, syscallSymlinkat, if_neg htarget, if_neg hlink, h, returnErrno_eq]
  | symlinkatResolve htarget hlink hroot h =>
      simp only [run, syscallSymlinkat, if_neg htarget, if_neg hlink, hroot, h, returnErrno_eq]
  | symlinkat htarget hlink hroot hnode h =>
      simp only [run, syscallSymlinkat, if_neg htarget, if_neg hlink, hroot, hnode, h,
        zeroOr_error, ofInt32_neg]
  | pipe h => simp only [run, syscallPipe, if_pos h, returnErrno_eq]
  | mmapRange h => simp only [run, syscallMmap, if_pos h, returnErrno_eq]
  | mmapType hrange hprot hfile hfd h =>
      simp only [run, syscallMmap, if_neg hrange, if_neg hprot, if_neg (not_not.mpr hfile), hfd,
        if_pos h, returnErrno_eq]
  | mmapOffset hrange hprot hfile hfd htype h =>
      simp only [run, syscallMmap, if_neg hrange, if_neg hprot, if_neg (not_not.mpr hfile), hfd,
        if_neg (not_not.mpr htype), if_pos h, returnErrno_eq]
  | munmap h => simp only [run, syscallMunmap, if_pos h, returnErrno_eq]
  | initModulePtr h => simp only [run, syscallInitModule, if_pos h, returnErrno_eq]
  | initModule hptr h =>
      simp only [run, syscallInitModule, if_neg hptr, h, Except.map, valueOr_error, ofInt32_neg]
  | @mountPtr source target fsType flags data h =>
      simp only [run, syscallMount, returnErrno_eq]
      by_cases htype : InvalidPtr fsType
      · rw [if_pos htype]
      · by_cases htarget : InvalidPtr target
        · rw [if_neg htype, if_pos htarget]
        · have hsource := (h.resolve_left htype).resolve_left htarget
          rw [if_neg htype, if_neg htarget, if_pos hsource.1, if_pos hsource.2]
  | mountLookup htype htarget hsource h =>
      simp only [run, syscallMount, if_neg htype, if_neg htarget, if_pos hsource.1,
        if_neg hsource.2, h, returnErrno_eq]
  | mountFile htype htarget hsource hfile h =>
      simp only [run, syscallMount, if_neg htype, if_neg htarget, if_pos hsource.1,
        if_neg hsource.2, hfile, finishMount, h, zeroOr_error, ofInt32_neg]
  | mountNull htype htarget hsource h =>
      simp only [run, syscallMount, if_neg htype, if_neg htarget, if_neg (not_not.mpr hsource),
        finishMount, h, zeroOr_error, ofInt32_neg]
  | umountPtr h => simp only [run, syscallUmount, if_pos h, returnErrno_eq]
  | umount htarget h =>
      simp only [run, syscallUmount, if_neg htarget, h, zeroOr_error, ofInt32_neg]

/-- `dup_stream` of a descriptor that is not open. -/
theorem Kernel.dupStream_closed {oldfd : Arg} (h : k.getStream oldfd = none) (newfd : Arg) :
    k.dupStream oldfd newfd = some (.error .EBADF) := by
  unfold Kernel.getStream at h
  unfold Kernel.dupStream FdTable.dupStream
  rw [h]
  rfl

theorem streamCall_closed {fd : Arg} (h : k.getStream fd = none)
    (operation : Stream N → Except ErrT Arg) :
    streamCall k fd operation = .returns (minus .EBADF) := by
  simp only [streamCall, h, returnErrno_eq]

/-- **A closed descriptor returns `-EBADF`** when the call meets the condition. -/
theorem notOpen_returned {c : Call} (h : NotOpen k c) (hmeets : Meets k c) :
    run k c = .returns (minus .EBADF) := by
  cases c with
  | read fd ptr length => exact streamCall_closed h _
  | write fd ptr length => exact streamCall_closed h _
  | seek fd position mode => exact streamCall_closed h _
  | ioctl fd request arg =>
      have hfd : k.getStream fd = none := h
      simp only [run, syscallIoctl, hfd, returnErrno_eq]
  | dup oldfd newfd flags =>
      simp only [run, syscallDup, Kernel.dupStream_closed h, valueOr_error, ofInt32_neg]
  | mmap ptr length prot flags fd offset => exact absurd h.2 (hmeets h.1)
  | exit | openat | close | fork | munmap | execve | initModule | symlinkat | waitpid | getid
  | mount | umount | pipe => exact absurd h id

/-! ## §7. The condition. -/

theorem Meets.errorsReturned {c : Call} (hmeets : Meets k c) : ErrorsReturned k c := by
  refine ⟨fun e h => h.returned hmeets, fun h => notOpen_returned h hmeets, ?_⟩
  -- either way the value is some `-e`, a success value of no call
  intro hfailing value hvalue
  have hminus : ∃ e, run k c = .returns (minus e) := by
    cases hfailing with
    | inl h =>
        obtain ⟨e, he⟩ := h
        exact ⟨e, he.returned hmeets⟩
    | inr h => exact ⟨_, notOpen_returned h hmeets⟩
  obtain ⟨e, he⟩ := hminus
  rw [he] at hvalue
  injection hvalue with hvalue
  exact hvalue ▸ minus_not_success e c

/-- A file that does not load: `execve` answers with a `bool`. -/
theorem execve_meets (filename argv envp : Arg)
    (h : ErrorsReturned k (.execve filename argv envp)) : Meets k (.execve filename argv envp) := by
  intro file hfile
  cases (k.execFile file).loads_or_fails with
  | inl hloads => exact hloads
  | inr hfails =>
      obtain ⟨e, he⟩ := hfails
      have hrun := h.fails e (.execveFile hfile he)
      simp only [run, syscallExecve, hfile, Outcome.returns.injEq] at hrun
      -- the `bool` is `0` or `1`, and `-e` is neither
      have hnat := congrArg BitVec.toNat hrun
      rw [minus_toNat] at hnat
      have hlt := e.lt
      split at hnat
      · have hone : (1 : Arg).toNat = 1 := rfl
        omega
      · have hzero : (0 : Arg).toNat = 0 := rfl
        omega

/-- `waitpid` answers with the positive code. -/
theorem waitpid_meets (pid status options : Arg)
    (h : ErrorsReturned k (.waitpid pid status options)) :
    Meets k (.waitpid pid status options) := by
  cases hthread : k.thread (pid.setWidth 32) with
  | none =>
      have hrun := h.fails .ECHILD (.waitpidNone hthread)
      simp only [run, syscallWaitpid, hthread] at hrun
      exact absurd hrun (by decide)
  | some thread =>
      cases hmain : thread.isMain with
      | true => exact ⟨thread, hthread, hmain⟩
      | false =>
          have hrun := h.fails .EINVAL (.waitpidNotMain hthread hmain)
          simp only [run, syscallWaitpid, hthread, hmain, Bool.false_eq_true, not_false_eq_true,
            if_true] at hrun
          exact absurd hrun (by decide)

/-- `mmap` of a closed descriptor turns the address down, does not look at the
descriptor, or uses the null stream. -/
theorem mmap_meets (ptr length prot flags fd offset : Arg)
    (h : ErrorsReturned k (.mmap ptr length prot flags fd offset)) :
    Meets k (.mmap ptr length prot flags fd offset) := by
  intro hfile hfd
  have hrun := h.notOpen ⟨hfile, hfd⟩
  simp only [run, syscallMmap, returnErrno_eq, hfd, if_neg (not_not.mpr hfile)] at hrun
  split at hrun
  -- the address is turned down first: `-EINVAL`
  · injection hrun with hrun
    exact absurd (minus_injective hrun) (by decide)
  · split at hrun
    -- `prot` is `0`: the user address lies below every `-e`
    · injection hrun with hrun
      have hbelow := (k.getFreeAddr (pageOf ptr) (pageLen length)).property
      have habove := kernelStart_lt_minus ErrT.EBADF
      rw [hrun, BitVec.lt_def] at hbelow
      rw [BitVec.lt_def] at habove
      omega
    · exact absurd hrun (by simp)

/-- **Error fidelity, exactly.**  A call returns its errors if and only if it is
not an `execve` of a file that is found and does not load, not a `waitpid` for a
thread that is not there or not main, and not a mapping of a closed descriptor. -/
theorem errors_returned_iff (k : Kernel N) (c : Call) : ErrorsReturned k c ↔ Meets k c := by
  constructor
  · intro h
    cases c with
    | execve filename argv envp => exact execve_meets filename argv envp h
    | waitpid pid status options => exact waitpid_meets pid status options h
    | mmap ptr length prot flags fd offset => exact mmap_meets ptr length prot flags fd offset h
    | exit | openat | close | read | write | fork | seek | munmap | initModule | symlinkat
    | ioctl | getid | dup | mount | umount | pipe => exact trivial
  · exact Meets.errorsReturned

end Handlers

/-! ## §8. Three calls that fail. -/

/-- A stream that refuses every operation. -/
def mute : Stream Unit :=
  { type := streamTypeFile
    node := ()
    read := fun _ _ => .error (.ofErrno .ENOTSUP)
    write := fun _ _ => .error (.ofErrno .ENOTSUP)
    seek := fun _ _ => .error (.ofErrno .ENOTSUP)
    ioctl := fun _ _ => .error (.ofErrno .ENOTSUP) }

/-- A process with no descriptor and no other process, where every path leads to
one text file of three bytes. -/
def lonely : Kernel Unit :=
  { cwd := ['/']
    streams := FdTable.empty
    hash := fun fd => fd.val.toNat
    freed := mute
    mainPid := 1
    currentPid := 1
    dies := true
    childPid := 2
    thread := fun pid => if pid = 1 then some ⟨true, 1⟩ else none
    cstr := fun _ => ['/', 'a']
    type := fun _ => .FILE
    getFile := fun _ _ _ => .ok ()
    resolvePath := fun _ path _ => .ok ((), path)
    symlink := fun _ _ _ => .error (.ofErrno .ENOTSUP)
    mount := fun _ _ _ => .error (.ofErrno .ENOTSUP)
    umount := fun _ => .error (.ofErrno .ENOENT)
    fileStream := fun _ => mute
    openFile := fun _ _ => .ok ()
    directoryStream := fun _ => mute
    openDirectory := fun _ => .error .ENOTDIR
    pipePair := (mute, mute)
    execFile := fun _ =>
      { openResult := .ok (), header := .ok 3, validElf := false, type := 0
        phdrEntryCount := 0, seekResult := .ok 0, programHeaders := .ok 0, storage := 0 }
    loadModule := fun _ _ => .error .ENOEXEC
    getFreeAddr := fun hint _ => if h : mmapMinAddr ≤ hint ∧ hint < kernelStart then ⟨hint, h.2⟩
      else ⟨mmapMinAddr, by decide⟩ }

/-- **`execve` of the text file returns `0`, `waitpid(18)` returns `18`, and
`mmap` of descriptor 7 uses a null stream.** -/
theorem failures_not_returned :
    (Fails lonely (.execve 0x400000 0 0) .ENOEXEC
      ∧ run lonely (.execve 0x400000 0 0) = .returns 0)
    ∧ (Fails lonely (.waitpid 18 0 0) .ECHILD ∧ run lonely (.waitpid 18 0 0) = .returns 18
      ∧ (Call.waitpid 18 0 0).Success 18)
    ∧ (NotOpen lonely (.mmap 0 4096 1 0 7 0)
      ∧ run lonely (.mmap 0 4096 1 0 7 0) = .nullStream)
    ∧ ¬ ∀ c, ErrorsReturned lonely c := by
  have hwait : Fails lonely (.waitpid 18 0 0) .ECHILD := .waitpidNone (by decide)
  refine ⟨⟨?_, by decide⟩, ⟨hwait, by decide, ?_⟩, ⟨⟨by decide, by decide⟩, by decide⟩, ?_⟩
  · have hfile : lonely.lookup (lonely.cstr 0x400000) = .ok () := rfl
    exact .execveFile hfile (.headerShort rfl rfl (by decide))
  · show (18 : Arg).toNat < 4294967296
    decide
  · intro hall
    have hrun := (hall _).fails _ hwait
    exact absurd hrun (by decide)

end MierOS.Tasking.Syscalls
