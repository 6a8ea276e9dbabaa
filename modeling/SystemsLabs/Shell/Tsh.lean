import Mathlib.Data.List.Basic

/-!
# The tiny shell `tsh.c`

`eval` and the three signal handlers of the shell lab, as a transition system over the shell's
state: where `eval` is, the signal mask, the saved `previousMask`, the job list, the pending
signals, and the kernel's record of the shell's children.

A step is one statement of `eval` that reads or writes shared state (`sigprocmask`, `fork`,
`open`, a job list call, one test of `while (fg_job())`, `sigsuspend`), one run of a handler
whose signal is pending and not blocked, or an event of the outside world: a child stops,
continues or terminates, or a signal is sent to the shell. `run` folds `step` over a list of
such actions, so the reachable states are those of every interleaving the masks allow.

Handlers run as one step: each begins by blocking every signal, so nothing else of the shell
interleaves with its body. `sigchld_handler` reports every child with an unreported stop or
termination in the kernel's order (`reapChildren`). `sigint_handler` and `sigtstp_handler`
change no state of the shell: they send a signal to `fgProcessGroup`, and the child's reaction
is one of the child events.

The job list is `tsh_helper.c`, which is not part of the source. It is taken as `tsh.c` uses
it: `add_job` appends a job with the next job id (ids start at 1, so `0` means "no job"),
`delete_job` and `job_set_state` act on the job with the given id, and `job_from_pid`,
`fg_job`, `job_get_pid` return the first job found, or `0`. `parseline` is taken as its
result: the `Cmd` that `eval` dispatches on. Command lines, printing and `execve` in the child
are not modelled.
-/

namespace SystemsLabs.Tsh

/-! ## Signal sets -/

/-- A `sigset_t`, restricted to the three signals the shell handles; `others` stands for every
other signal, which `sigfillset` adds. -/
structure SigSet where
  int : Bool
  chld : Bool
  tstp : Bool
  others : Bool
  deriving DecidableEq, Repr

inductive Sig
  | int
  | chld
  | tstp
  deriving DecidableEq, Repr

namespace SigSet

/-- `sigprocmask(SIG_BLOCK, set, ...)`: the mask and the set together. -/
def union (a b : SigSet) : SigSet :=
  ⟨a.int || b.int, a.chld || b.chld, a.tstp || b.tstp, a.others || b.others⟩

def get (s : SigSet) : Sig → Bool
  | .int => s.int
  | .chld => s.chld
  | .tstp => s.tstp

def set (s : SigSet) : Sig → Bool → SigSet
  | .int, b => { s with int := b }
  | .chld, b => { s with chld := b }
  | .tstp, b => { s with tstp := b }

@[simp] theorem union_chld (a b : SigSet) : (a.union b).chld = (a.chld || b.chld) := rfl

end SigSet

/-- `maskAll` of `init_signal_sets`: `sigfillset`. -/
def maskAll : SigSet := ⟨true, true, true, true⟩

/-- `maskSelected` of `init_signal_sets`: `SIGINT`, `SIGCHLD` and `SIGTSTP`. -/
def maskSelected : SigSet := ⟨true, true, true, false⟩

/-- The empty signal set. -/
def emptyMask : SigSet := ⟨false, false, false, false⟩

/-! ## The job list (`tsh_helper.c`) -/

inductive JobState
  | UNDEF
  | FG
  | BG
  | ST
  deriving DecidableEq, Repr

structure Job where
  jid : Nat
  pid : Int
  state : JobState
  deriving DecidableEq, Repr

/-- `add_job(pid, state, cmdline)`, with `jid` the next job id. -/
def addJob (jobs : List Job) (jid : Nat) (pid : Int) (state : JobState) : List Job :=
  jobs ++ [⟨jid, pid, state⟩]

/-- `delete_job(jid)`. -/
def deleteJob (jobs : List Job) (jid : Nat) : List Job := jobs.filter fun j => j.jid ≠ jid

/-- `job_from_pid(pid)`: the id of the job of `pid`, `0` if there is none. -/
def jobFromPid (jobs : List Job) (pid : Int) : Nat :=
  ((jobs.find? fun j => j.pid = pid).map Job.jid).getD 0

/-- `fg_job()`: the id of the foreground job, `0` if there is none. -/
def fgJob (jobs : List Job) : Nat :=
  ((jobs.find? fun j => j.state = .FG).map Job.jid).getD 0

/-- `job_exists(jid)`. -/
def jobExists (jobs : List Job) (jid : Nat) : Bool := jobs.any fun j => j.jid = jid

/-- `job_get_pid(jid)`. -/
def jobGetPid (jobs : List Job) (jid : Nat) : Int :=
  ((jobs.find? fun j => j.jid = jid).map Job.pid).getD 0

/-- `job_set_state(jid, state)`. -/
def jobSetState (jobs : List Job) (jid : Nat) (state : JobState) : List Job :=
  jobs.map fun j => if j.jid = jid then { j with state := state } else j

/-- The process group `sigint_handler` and `sigtstp_handler` send their signal to:
`-job_get_pid(fg_job())` when `fg_job() > 0`. -/
def fgProcessGroup (jobs : List Job) : Option Int :=
  if fgJob jobs > 0 then some (jobGetPid jobs (fgJob jobs)) else none

/-! ## The kernel's children -/

/-- What `waitpid(-1, &status, WNOHANG | WUNTRACED)` can still report about a child: a stop
(until reported), or a termination, after which the child is reaped and gone. -/
inductive ChildStatus
  | running
  | stopped (reported : Bool)
  | terminated
  deriving DecidableEq, Repr

structure Child where
  pid : Int
  status : ChildStatus
  deriving DecidableEq, Repr

/-- The new status of the child `pid`. -/
def setStatus (children : List Child) (pid : Int) (status : ChildStatus) : List Child :=
  children.map fun c => if c.pid = pid then { c with status := status } else c

def ChildStatus.isStopped : ChildStatus → Bool
  | .stopped _ => true
  | _ => false

/-- `kill(-pid, SIGCONT)`: the stopped group leader `pid` runs again. -/
def continueGroup (children : List Child) (pid : Int) : List Child :=
  children.map fun c => if c.pid = pid ∧ c.status.isStopped then { c with status := .running } else c

/-- The `waitpid` loop of `sigchld_handler`: each child with an unreported stop is reported and
its job set to `ST`; each terminated child is reaped and its job deleted. -/
def reapChildren : List Job → List Child → List Job × List Child
  | jobs, [] => (jobs, [])
  | jobs, c :: cs =>
    match c.status with
    | .stopped false =>
      let r := reapChildren (jobSetState jobs (jobFromPid jobs c.pid) .ST) cs
      (r.1, ⟨c.pid, .stopped true⟩ :: r.2)
    | .terminated => reapChildren (deleteJob jobs (jobFromPid jobs c.pid)) cs
    | _ =>
      let r := reapChildren jobs cs
      (r.1, c :: r.2)

/-! ## The shell -/

/-- The argument of `bg` and `fg` after `atoi`: `%jid`, or a pid. -/
inductive Arg
  | jobId (jid : Nat)
  | processId (pid : Int)
  deriving DecidableEq, Repr

/-- What `parseline` hands to `eval`. -/
inductive Cmd
  /-- `PARSELINE_ERROR` or `PARSELINE_EMPTY`. -/
  | empty
  | quit
  /-- `jobs`, with or without an output file. -/
  | jobs (outfile : Bool)
  /-- `bg` or `fg`; `none` when `argc < 2`. -/
  | bgFg (bg : Bool) (arg : Option Arg)
  /-- `BUILTIN_NONE`: `fg` for `PARSELINE_FG`. -/
  | builtinNone (fg : Bool)
  deriving DecidableEq, Repr

/-- Where the shell is: the read loop of `main`, or a point inside `eval`. -/
inductive Pc
  | loop
  /-- `handle_builtin_jobs` after its `SIG_BLOCK`. -/
  | jobs (outfile : Bool)
  /-- `handle_builtin_bg_fg` after its `SIG_BLOCK`, before `parse_argument`. -/
  | bgFg (bg : Bool) (arg : Arg)
  /-- `handle_job(pid)`, before `job_set_state`. -/
  | handleJob (bg : Bool) (pid : Int)
  /-- The test of `while (fg_job())`. -/
  | fgWait
  /-- Inside `sigsuspend(previousMask)`. -/
  | sigsuspend
  /-- `handle_builtin_none` after its `SIG_BLOCK`, before `fork`. -/
  | builtinNone (fg : Bool)
  /-- `handle_parent_process(pid)`, before `add_job`. -/
  | parent (fg : Bool) (pid : Int)
  /-- After `exit(0)`. -/
  | exited
  deriving DecidableEq, Repr

structure Shell where
  pc : Pc
  mask : SigSet
  /-- The `previousMask` of the helper `eval` is in. -/
  previousMask : SigSet
  jobs : List Job
  /-- The job id `add_job` gives next. -/
  nextJid : Nat
  pending : SigSet
  children : List Child
  deriving DecidableEq, Repr

/-- The signals blocked now: inside `sigsuspend` the mask is `previousMask`. -/
def Shell.blocked (s : Shell) : SigSet := if s.pc = .sigsuspend then s.previousMask else s.mask

/-- `sigprocmask(SIG_SETMASK, &previousMask, NULL)` and back to the read loop. -/
def returnToLoop (s : Shell) : Shell := { s with pc := .loop, mask := s.previousMask }

/-- `sigprocmask(SIG_BLOCK, set, &previousMask)`, then on to `pc`. -/
def blockSignals (s : Shell) (set : SigSet) (pc : Pc) : Shell :=
  { s with pc := pc, previousMask := s.mask, mask := s.mask.union set }

/-- `eval(cmdline)` up to the first `sigprocmask` of the helper it calls. -/
def eval (s : Shell) : Cmd → Shell
  | .empty => s
  | .quit => { s with pc := .exited }
  | .jobs outfile => blockSignals s maskSelected (.jobs outfile)
  | .bgFg _ none => s
  | .bgFg bg (some arg) => blockSignals s maskAll (.bgFg bg arg)
  | .builtinNone fg => blockSignals s maskSelected (.builtinNone fg)

/-- `parse_argument`: the pid named by the argument, or `-1` after restoring the mask. -/
def parseArgument (s : Shell) : Arg → Shell × Int
  | .jobId jid =>
    if jid = 0 ∨ jobExists s.jobs jid = false then ({ s with mask := s.previousMask }, -1)
    else (s, jobGetPid s.jobs jid)
  | .processId pid =>
    if pid = 0 then ({ s with mask := s.previousMask }, -1)
    else if jobFromPid s.jobs pid = 0 then ({ s with mask := s.previousMask }, -1)
    else (s, pid)

/-- The rest of `handle_builtin_bg_fg`: `parse_argument`, and on `-1` an early `return`. -/
def handleBuiltinBgFg (s : Shell) (bg : Bool) (arg : Arg) : Shell :=
  let r := parseArgument s arg
  if r.2 = -1 then { r.1 with pc := .loop } else { r.1 with pc := .handleJob bg r.2 }

/-- `handle_job(pid)`: the job's new state, `SIGCONT` to its group, then for `fg` the wait loop
and for `bg` the mask restored by `handle_builtin_bg_fg`. -/
def handleJob (s : Shell) (bg : Bool) (pid : Int) : Shell :=
  let s := { s with jobs := jobSetState s.jobs (jobFromPid s.jobs pid) (if bg then .BG else .FG),
                    children := continueGroup s.children pid }
  if bg then returnToLoop s else { s with pc := .fgWait }

/-- `handle_parent_process(pid)`: `add_job`, then the wait loop of a foreground job; the mask is
restored there and again in `handle_builtin_none`. -/
def handleParentProcess (s : Shell) (fg : Bool) (pid : Int) : Shell :=
  let s := { s with jobs := addJob s.jobs s.nextJid pid (if fg then .FG else .BG),
                    nextJid := s.nextJid + 1 }
  if fg then { s with pc := .fgWait } else returnToLoop s

/-- The next statement of `eval`, with its system calls succeeding. -/
def next (s : Shell) : Option Shell :=
  match s.pc with
  | .jobs _ => some (returnToLoop s)
  | .bgFg bg arg => some (handleBuiltinBgFg s bg arg)
  | .handleJob bg pid => some (handleJob s bg pid)
  | .fgWait => some (if fgJob s.jobs ≠ 0 then { s with pc := .sigsuspend } else returnToLoop s)
  | .parent fg pid => some (handleParentProcess s fg pid)
  | _ => none

/-- `fork()` in `handle_builtin_none` returns `pid` to the shell: a new child, or `-1`. -/
def fork (s : Shell) (pid : Int) : Option Shell :=
  match s.pc with
  | .builtinNone fg =>
    if pid = -1 then some { s with pc := .parent fg pid }
    else if 0 < pid ∧ pid ∉ s.children.map Child.pid then
      some { s with pc := .parent fg pid, children := s.children ++ [⟨pid, .running⟩] }
    else none
  | _ => none

/-- `sigchld_handler`. -/
def sigchldHandler (s : Shell) : Shell :=
  let r := reapChildren s.jobs s.children
  { s with jobs := r.1, children := r.2 }

/-- A handler runs: its signal is no longer pending, and a `sigsuspend` it interrupted
returns to the test of the wait loop. -/
def handle (s : Shell) (sig : Sig) : Shell :=
  let s := { s with pending := s.pending.set sig false,
                    pc := if s.pc = .sigsuspend then .fgWait else s.pc }
  match sig with
  | .chld => sigchldHandler s
  | _ => s

/-- A child's state change, with `SIGCHLD` sent to the shell. -/
def childEvent (s : Shell) (pid : Int) (ok : ChildStatus → Bool) (status : ChildStatus) :
    Option Shell :=
  if s.children.any fun c => c.pid = pid ∧ ok c.status then
    some { s with children := setStatus s.children pid status,
                  pending := s.pending.set .chld true }
  else none

inductive Act
  /-- The read loop calls `eval` on a command line. -/
  | eval (cmd : Cmd)
  | next
  /-- The `open` of the output file of `jobs` fails. -/
  | openFails
  | fork (pid : Int)
  | handler (sig : Sig)
  | childStops (pid : Int)
  | childContinues (pid : Int)
  | childTerminates (pid : Int)
  /-- A signal sent to the shell (`ctrl-c`, `ctrl-z`, or any other sender). -/
  | signal (sig : Sig)
  deriving DecidableEq, Repr

def step (s : Shell) : Act → Option Shell
  | .eval cmd => if s.pc = .loop then some (eval s cmd) else none
  | .next => next s
  | .openFails => if s.pc = .jobs true then some { s with pc := .loop } else none
  | .fork pid => fork s pid
  | .handler sig =>
    if s.pc ≠ .exited ∧ s.pending.get sig = true ∧ s.blocked.get sig = false then
      some (handle s sig)
    else none
  | .childStops pid => childEvent s pid (· = .running) (.stopped false)
  | .childContinues pid => childEvent s pid ChildStatus.isStopped .running
  | .childTerminates pid => childEvent s pid (· ≠ .terminated) .terminated
  | .signal sig => some { s with pending := s.pending.set sig true }

def run (s : Shell) : List Act → Option Shell
  | [] => some s
  | a :: acts => (step s a).bind fun s => run s acts

/-- The shell entering its read loop, with the signal mask it inherited. -/
def init (mask : SigSet) : Shell := ⟨.loop, mask, mask, [], 1, emptyMask, []⟩

end SystemsLabs.Tsh
