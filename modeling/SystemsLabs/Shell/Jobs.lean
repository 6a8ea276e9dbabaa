import SystemsLabs.Shell.Tsh
import Mathlib.Data.List.Perm.Basic
import Mathlib.Data.List.Nodup

/-!
# Jobs and signals in `tsh`

Invariants of every run of `step` from `init`, whatever the commands, the signal deliveries the
masks allow and the order in which children stop, continue and terminate.

* `fg_job_unique`: at most one job is in state `FG`, none when `eval` is back in the read loop,
  and the process group `sigint_handler` and `sigtstp_handler` signal is that job's. The
  invariant is `FgInv`: outside the two wait loops there is no foreground job, because
  `add_job(pid, FG)` and `job_set_state(jid, FG)` start from a state with none, and the loops
  exit only when `fg_job()` is `0`.
* `jobs_track_children`: in runs where no `fork` fails, a child missing from the job list is the
  one between `fork` and `add_job`, with SIGCHLD blocked; where SIGCHLD is not blocked, the pids
  of the job list are exactly the children not yet reaped; a child reported stopped has a job in
  state `ST`. The invariant is `TrackInv`; `reapChildren_tracks` is the handler's part of it.
* `jobs_open_failure_leaves_selected_blocked`: `jobs > file` with a failing `open` returns to the
  read loop with `SIGINT`, `SIGCHLD` and `SIGTSTP` added to the mask.

`jobSetState_jobFromPid` and `deleteJob_jobFromPid` turn the `job_from_pid` lookups of the
handler into operations on the job of a pid, once job ids and pids are distinct.
-/

namespace SystemsLabs.Tsh

/-! ## The job list -/

section JobList
variable {jobs : List Job} {jid n : Nat} {pid : Int} {st : JobState}

@[simp] theorem jobSetState_map_jid : (jobSetState jobs jid st).map Job.jid = jobs.map Job.jid := by
  simp only [jobSetState, List.map_map]
  exact List.map_congr_left fun j _ => by simp only [Function.comp]; split <;> rfl

@[simp] theorem jobSetState_map_pid : (jobSetState jobs jid st).map Job.pid = jobs.map Job.pid := by
  simp only [jobSetState, List.map_map]
  exact List.map_congr_left fun j _ => by simp only [Function.comp]; split <;> rfl

/-- The ids of a job list are distinct, and each is positive and below the next one. -/
def JidsOk (jobs : List Job) (nextJid : Nat) : Prop :=
  (jobs.map Job.jid).Nodup ∧ ∀ i ∈ jobs.map Job.jid, 0 < i ∧ i < nextJid

theorem JidsOk.of_sublist {jobs' : List Job} (h : JidsOk jobs n) (hs : jobs'.Sublist jobs) :
    JidsOk jobs' n :=
  ⟨h.1.sublist (hs.map _), fun i hi => h.2 i ((hs.map _).subset hi)⟩

theorem JidsOk.jobSetState (h : JidsOk jobs n) : JidsOk (jobSetState jobs jid st) n := by
  unfold JidsOk; rwa [jobSetState_map_jid]

theorem JidsOk.deleteJob (h : JidsOk jobs n) : JidsOk (deleteJob jobs jid) n :=
  h.of_sublist (List.filter_sublist _)

theorem JidsOk.addJob (h : JidsOk jobs n) (hn : 0 < n) :
    JidsOk (addJob jobs n pid st) (n + 1) := by
  refine ⟨?_, fun i hi => ?_⟩
  · simp only [Tsh.addJob, List.map_append, List.map_singleton]
    exact h.1.append (List.nodup_singleton _) fun i hi hn' => by
      simp only [List.mem_singleton] at hn'; have := (h.2 i hi).2; omega
  · simp only [Tsh.addJob, List.map_append, List.map_singleton, List.mem_append,
      List.mem_singleton] at hi
    rcases hi with hi | rfl
    · have := h.2 i hi; omega
    · omega

theorem JidsOk.pos (h : JidsOk jobs n) {j : Job} (hj : j ∈ jobs) : 0 < j.jid :=
  (h.2 _ (List.mem_map_of_mem _ hj)).1

/-- With distinct ids and pids, `job_from_pid(pid)` names exactly the job of `pid`. -/
theorem jid_eq_jobFromPid_iff (h : JidsOk jobs n) (hp : (jobs.map Job.pid).Nodup) {x : Job}
    (hx : x ∈ jobs) : x.jid = jobFromPid jobs pid ↔ x.pid = pid := by
  unfold jobFromPid
  cases hf : jobs.find? fun j => j.pid = pid with
  | none =>
    have := List.find?_eq_none.1 hf x hx
    simp only [decide_eq_true_eq] at this
    simp only [Option.map_none', Option.getD_none, this, iff_false]
    exact (h.pos hx).ne'
  | some y =>
    have hy := List.mem_of_find?_eq_some hf
    have hyp : y.pid = pid := by simpa using List.find?_some hf
    simp only [Option.map_some', Option.getD_some]
    constructor
    · intro hxy; rw [List.inj_on_of_nodup_map h.1 hx hy hxy, hyp]
    · intro hxp; rw [List.inj_on_of_nodup_map hp hx hy (hxp.trans hyp.symm)]

theorem jobSetState_jobFromPid (h : JidsOk jobs n) (hp : (jobs.map Job.pid).Nodup) :
    jobSetState jobs (jobFromPid jobs pid) st =
      jobs.map fun j => if j.pid = pid then { j with state := st } else j :=
  List.map_congr_left fun x hx => by simp only [jid_eq_jobFromPid_iff h hp hx]

theorem deleteJob_jobFromPid (h : JidsOk jobs n) (hp : (jobs.map Job.pid).Nodup) :
    deleteJob jobs (jobFromPid jobs pid) = jobs.filter fun j => j.pid ≠ pid :=
  List.filter_congr fun x hx => by simp only [ne_eq, jid_eq_jobFromPid_iff h hp hx]

/-- `sigchld_handler` changes the job list only by `job_set_state(_, ST)` and `delete_job`. -/
theorem reapChildren_jobs (Q : List Job → Prop) (hset : ∀ jobs jid, Q jobs → Q (jobSetState jobs jid .ST))
    (hdel : ∀ jobs jid, Q jobs → Q (deleteJob jobs jid)) (cs : List Child) :
    ∀ jobs, Q jobs → Q (reapChildren jobs cs).1 := by
  induction cs with
  | nil => exact fun _ h => h
  | cons c cs ih =>
    intro jobs h
    unfold reapChildren
    split
    · exact ih _ (hset _ _ h)
    · exact ih _ (hdel _ _ h)
    · exact ih _ h

end JobList

/-! ## At most one foreground job -/

/-- The jobs in state `FG`. -/
def fgCount (jobs : List Job) : Nat := jobs.countP fun j => j.state = .FG

section Foreground
variable {jobs : List Job} {jid n : Nat} {pid : Int} {st : JobState}

theorem fgCount_jobSetState_le (hst : st ≠ .FG) : fgCount (jobSetState jobs jid st) ≤ fgCount jobs := by
  rw [fgCount, jobSetState, List.countP_map]
  exact List.countP_mono_left fun x _ => by
    simp only [Function.comp, decide_eq_true_eq]; split <;> simp_all

theorem countP_jid_le_one (jid : Nat) (hnd : (jobs.map Job.jid).Nodup) :
    jobs.countP (fun j => j.jid = jid) ≤ 1 := by
  have := List.nodup_iff_count_le_one.1 hnd jid
  rwa [List.count, List.countP_map] at this

/-- From no foreground job, `job_set_state` of one job id makes at most one. -/
theorem fgCount_jobSetState_le_one (h0 : fgCount jobs = 0) (hnd : (jobs.map Job.jid).Nodup) :
    fgCount (jobSetState jobs jid st) ≤ 1 := by
  have hfg := List.countP_eq_zero.1 h0
  rw [fgCount, jobSetState, List.countP_map]
  refine le_trans (List.countP_mono_left fun x hx => ?_) (countP_jid_le_one jid hnd)
  simp only [Function.comp, decide_eq_true_eq]
  split
  · exact fun _ => ‹_›
  · exact fun h => absurd (by simpa using h) (hfg x hx)

theorem fgCount_deleteJob_le : fgCount (deleteJob jobs jid) ≤ fgCount jobs :=
  (List.filter_sublist _).countP_le _

theorem fgCount_addJob : fgCount (addJob jobs n pid st) = fgCount jobs + if st = .FG then 1 else 0 := by
  simp only [fgCount, addJob, List.countP_append, List.countP_cons, List.countP_nil]
  split <;> simp_all

theorem fgCount_reapChildren_le (cs : List Child) : fgCount (reapChildren jobs cs).1 ≤ fgCount jobs :=
  reapChildren_jobs (fun js => fgCount js ≤ fgCount jobs)
    (fun _ _ h => (fgCount_jobSetState_le (by decide)).trans h)
    (fun _ _ h => fgCount_deleteJob_le.trans h) cs jobs le_rfl

/-- `fg_job()` is `0` exactly when no job is in the foreground. -/
theorem fgJob_eq_zero_iff (h : JidsOk jobs n) : fgJob jobs = 0 ↔ fgCount jobs = 0 := by
  unfold fgJob fgCount
  cases hf : jobs.find? fun j => j.state = .FG with
  | none =>
    simp only [Option.map_none', Option.getD_none, true_iff]
    exact List.countP_eq_zero.2 (List.find?_eq_none.1 hf)
  | some y =>
    have hy := List.find?_some hf
    have hpos : 0 < List.countP (fun j => decide (j.state = .FG)) jobs :=
      List.countP_pos_iff.2 ⟨y, List.mem_of_find?_eq_some hf, hy⟩
    simp only [Option.map_some', Option.getD_some]
    exact iff_of_false (h.pos (List.mem_of_find?_eq_some hf)).ne' hpos.ne'

end Foreground

/-! ## The steps of `eval` -/

section Steps
variable {s s' : Shell}

@[simp] theorem eval_jobs (cmd : Cmd) : (eval s cmd).jobs = s.jobs := by
  cases cmd with
  | bgFg _ arg => cases arg <;> rfl
  | _ => rfl

@[simp] theorem eval_nextJid (cmd : Cmd) : (eval s cmd).nextJid = s.nextJid := by
  cases cmd with
  | bgFg _ arg => cases arg <;> rfl
  | _ => rfl

@[simp] theorem eval_children (cmd : Cmd) : (eval s cmd).children = s.children := by
  cases cmd with
  | bgFg _ arg => cases arg <;> rfl
  | _ => rfl

@[simp] theorem handleBuiltinBgFg_jobs (bg : Bool) (arg : Arg) :
    (handleBuiltinBgFg s bg arg).jobs = s.jobs := by
  cases arg <;> simp only [handleBuiltinBgFg, parseArgument] <;> split_ifs <;> rfl

@[simp] theorem handleBuiltinBgFg_nextJid (bg : Bool) (arg : Arg) :
    (handleBuiltinBgFg s bg arg).nextJid = s.nextJid := by
  cases arg <;> simp only [handleBuiltinBgFg, parseArgument] <;> split_ifs <;> rfl

@[simp] theorem handleBuiltinBgFg_children (bg : Bool) (arg : Arg) :
    (handleBuiltinBgFg s bg arg).children = s.children := by
  cases arg <;> simp only [handleBuiltinBgFg, parseArgument] <;> split_ifs <;> rfl

theorem handleBuiltinBgFg_pc (bg : Bool) (arg : Arg) :
    (handleBuiltinBgFg s bg arg).pc = .loop ∨ ∃ pid, (handleBuiltinBgFg s bg arg).pc = .handleJob bg pid := by
  simp only [handleBuiltinBgFg]; split_ifs <;> simp

@[simp] theorem handle_nextJid (sig : Sig) : (handle s sig).nextJid = s.nextJid := by
  cases sig <;> rfl

@[simp] theorem handle_mask (sig : Sig) : (handle s sig).mask = s.mask := by
  cases sig <;> rfl

@[simp] theorem handle_pc (sig : Sig) :
    (handle s sig).pc = if s.pc = .sigsuspend then .fgWait else s.pc := by
  cases sig <;> rfl

@[simp] theorem handleJob_jobs (bg : Bool) (pid : Int) : (handleJob s bg pid).jobs =
    jobSetState s.jobs (jobFromPid s.jobs pid) (if bg then .BG else .FG) := by
  unfold handleJob; split <;> rfl

@[simp] theorem handleJob_nextJid (bg : Bool) (pid : Int) :
    (handleJob s bg pid).nextJid = s.nextJid := by
  unfold handleJob; split <;> rfl

@[simp] theorem handleJob_children (bg : Bool) (pid : Int) :
    (handleJob s bg pid).children = continueGroup s.children pid := by
  unfold handleJob; split <;> rfl

@[simp] theorem handleJob_pc (bg : Bool) (pid : Int) :
    (handleJob s bg pid).pc = if bg then .loop else .fgWait := by
  unfold handleJob; split <;> rfl

@[simp] theorem handleParentProcess_jobs (fg : Bool) (pid : Int) :
    (handleParentProcess s fg pid).jobs =
      addJob s.jobs s.nextJid pid (if fg then .FG else .BG) := by
  unfold handleParentProcess; split <;> rfl

@[simp] theorem handleParentProcess_nextJid (fg : Bool) (pid : Int) :
    (handleParentProcess s fg pid).nextJid = s.nextJid + 1 := by
  unfold handleParentProcess; split <;> rfl

@[simp] theorem handleParentProcess_children (fg : Bool) (pid : Int) :
    (handleParentProcess s fg pid).children = s.children := by
  unfold handleParentProcess; split <;> rfl

@[simp] theorem handleParentProcess_pc (fg : Bool) (pid : Int) :
    (handleParentProcess s fg pid).pc = if fg then .fgWait else .loop := by
  unfold handleParentProcess; split <;> rfl

theorem handle_jobs (sig : Sig) :
    (handle s sig).jobs = if sig = .chld then (reapChildren s.jobs s.children).1 else s.jobs := by
  cases sig <;> rfl

theorem handle_children (sig : Sig) :
    (handle s sig).children =
      if sig = .chld then (reapChildren s.jobs s.children).2 else s.children := by
  cases sig <;> rfl

theorem childEvent_eq {pid : Int} {ok : ChildStatus → Bool} {status : ChildStatus}
    (h : childEvent s pid ok status = some s') :
    s' = { s with children := setStatus s.children pid status,
                  pending := s.pending.set .chld true } := by
  unfold childEvent at h; split_ifs at h; exact (Option.some.inj h).symm

end Steps

/-- The two wait loops `while (fg_job()) sigsuspend(previousMask)`. -/
def Pc.waiting : Pc → Bool
  | .fgWait | .sigsuspend => true
  | _ => false

/-- The invariant behind `fg_job_unique`: no foreground job outside the wait loops, at most one
inside. -/
structure FgInv (s : Shell) : Prop where
  jids : JidsOk s.jobs s.nextJid
  next_pos : 0 < s.nextJid
  fg : fgCount s.jobs ≤ if s.pc.waiting then 1 else 0

section FgInv
variable {s s' : Shell}

theorem FgInv.init (mask : SigSet) : FgInv (init mask) :=
  ⟨⟨List.nodup_nil, fun _ h => absurd h (List.not_mem_nil _)⟩, Nat.one_pos, Nat.zero_le _⟩

/-- A step that keeps the job list and does not leave a wait loop keeps the invariant. -/
theorem FgInv.of_jobs (hi : FgInv s) (hj : s'.jobs = s.jobs) (hn : s'.nextJid = s.nextJid)
    (hw : s.pc.waiting = true → s'.pc.waiting = true) : FgInv s' := by
  refine ⟨hj ▸ hn ▸ hi.jids, hn ▸ hi.next_pos, hj ▸ hi.fg.trans ?_⟩
  cases h : s.pc.waiting
  · exact Nat.zero_le _
  · simp [hw h]

theorem FgInv.zero (hi : FgInv s) (hw : s.pc.waiting = false) : fgCount s.jobs = 0 := by
  have := hi.fg; rw [hw] at this; simpa using this

theorem FgInv.next (hi : FgInv s) (h : Tsh.next s = some s') : FgInv s' := by
  unfold Tsh.next at h
  split at h <;> cases h
  case h_1 hpc => exact hi.of_jobs rfl rfl (by simp [returnToLoop, hpc, Pc.waiting])
  case h_2 hpc =>
    exact hi.of_jobs (by simp) (by simp) fun hw => by simp [hpc, Pc.waiting] at hw
  case h_3 bg pid hpc =>
    have h0 := hi.zero (by simp [hpc, Pc.waiting])
    refine ⟨by simpa using hi.jids.jobSetState, by simpa using hi.next_pos, ?_⟩
    cases bg
    · simpa [Pc.waiting] using fgCount_jobSetState_le_one h0 hi.jids.1
    · have : fgCount (jobSetState s.jobs (jobFromPid s.jobs pid) .BG) ≤ fgCount s.jobs :=
        fgCount_jobSetState_le (by decide)
      simpa [Pc.waiting, h0] using this
  case h_4 hpc =>
    split_ifs with hfg
    · exact hi.of_jobs rfl rfl fun _ => rfl
    · have h0 := (fgJob_eq_zero_iff hi.jids).1 (not_not.1 hfg)
      exact ⟨hi.jids, hi.next_pos, by simp [returnToLoop, h0]⟩
  case h_5 fg pid hpc =>
    have h0 := hi.zero (by simp [hpc, Pc.waiting])
    refine ⟨by simpa using hi.jids.addJob hi.next_pos, by simp, ?_⟩
    cases fg <;> simp [fgCount_addJob, h0, Pc.waiting]

theorem FgInv.step (hi : FgInv s) {a : Act} (h : step s a = some s') : FgInv s' := by
  cases a with
  | eval cmd =>
    simp only [Tsh.step] at h; split_ifs at h with hpc; cases h
    exact hi.of_jobs (by simp) (by simp) fun hw => by simp [hpc, Pc.waiting] at hw
  | next => exact hi.next h
  | openFails =>
    simp only [Tsh.step] at h; split_ifs at h with hpc; cases h
    exact hi.of_jobs rfl rfl fun hw => by simp [hpc, Pc.waiting] at hw
  | fork pid =>
    simp only [Tsh.step, Tsh.fork] at h
    split at h
    · split_ifs at h <;> cases h <;>
        exact hi.of_jobs rfl rfl fun hw => by simp [*, Pc.waiting] at hw
    · cases h
  | handler sig =>
    simp only [Tsh.step] at h; split_ifs at h; cases h
    have hw : (handle s sig).pc.waiting = s.pc.waiting := by
      rw [handle_pc]; split_ifs with hp <;> simp [hp, Pc.waiting]
    refine ⟨?_, by simpa using hi.next_pos, ?_⟩
    · rw [handle_jobs, handle_nextJid]; split_ifs
      · exact reapChildren_jobs (JidsOk · s.nextJid) (fun _ _ h => h.jobSetState)
          (fun _ _ h => h.deleteJob) _ _ hi.jids
      · exact hi.jids
    · rw [hw, handle_jobs]
      refine le_trans ?_ hi.fg
      split_ifs
      · exact fgCount_reapChildren_le _
      · exact le_rfl
  | childStops pid =>
    simp only [Tsh.step] at h; obtain rfl := childEvent_eq h; exact hi.of_jobs rfl rfl id
  | childContinues pid =>
    simp only [Tsh.step] at h; obtain rfl := childEvent_eq h; exact hi.of_jobs rfl rfl id
  | childTerminates pid =>
    simp only [Tsh.step] at h; obtain rfl := childEvent_eq h; exact hi.of_jobs rfl rfl id
  | signal sig => cases h; exact hi.of_jobs rfl rfl id

theorem FgInv.run (hi : FgInv s) {acts : List Act} (h : Tsh.run s acts = some s') : FgInv s' := by
  induction acts generalizing s with
  | nil => cases h; exact hi
  | cons a acts ih =>
    simp only [Tsh.run, Option.bind_eq_some] at h
    obtain ⟨t, ht, h⟩ := h
    exact ih (hi.step ht) h

end FgInv

/-- `fg_job()` and `job_get_pid` find the pid of a foreground job. -/
theorem fgProcessGroup_spec {jobs : List Job} {n : Nat} {pid : Int} (h : JidsOk jobs n)
    (hp : fgProcessGroup jobs = some pid) : ∃ j ∈ jobs, j.state = .FG ∧ j.pid = pid := by
  unfold fgProcessGroup at hp
  split_ifs at hp with hpos
  cases hp
  unfold fgJob at hpos ⊢
  cases hf : jobs.find? fun j => j.state = .FG with
  | none => simp [hf] at hpos
  | some y =>
    have hy := List.mem_of_find?_eq_some hf
    simp only [Option.map_some', Option.getD_some]
    refine ⟨y, hy, by simpa using List.find?_some hf, ?_⟩
    unfold jobGetPid
    cases hg : jobs.find? fun j => j.jid = y.jid with
    | none => exact (List.find?_eq_none.1 hg y hy (by simp)).elim
    | some z =>
      have hz : z.jid = y.jid := by simpa using List.find?_some hg
      simp [List.inj_on_of_nodup_map h.1 (List.mem_of_find?_eq_some hg) hy hz]

/-- At most one job is in the foreground, none when `eval` has returned to the read loop, and
the process group `sigint_handler` and `sigtstp_handler` signal is the foreground job's. -/
theorem fg_job_unique (mask : SigSet) (acts : List Act) (s : Shell)
    (h : run (init mask) acts = some s) :
    fgCount s.jobs ≤ 1 ∧ (s.pc = .loop → fgCount s.jobs = 0) ∧
      ∀ pid, fgProcessGroup s.jobs = some pid →
        fgCount s.jobs = 1 ∧ ∃ j ∈ s.jobs, j.state = .FG ∧ j.pid = pid := by
  have hi := (FgInv.init mask).run h
  have hle : fgCount s.jobs ≤ 1 := hi.fg.trans (by split <;> omega)
  refine ⟨hle, fun hpc => hi.zero (by simp [hpc, Pc.waiting]), fun pid hp => ?_⟩
  obtain ⟨j, hj, hfg, rfl⟩ := fgProcessGroup_spec hi.jids hp
  exact ⟨le_antisymm hle (List.countP_pos_iff.2 ⟨j, hj, by simpa using hfg⟩), j, hj, hfg, rfl⟩

/-- A foreground job started from an empty mask: the shell waits in `sigsuspend`. -/
theorem fg_job_unique_in_sigsuspend :
    run (init emptyMask) [.eval (.builtinNone true), .fork 5, .next, .next] =
        some ⟨.sigsuspend, maskSelected, emptyMask, [⟨1, 5, .FG⟩], 2, emptyMask, [⟨5, .running⟩]⟩ ∧
      fgCount [⟨1, 5, .FG⟩] ≤ 1 ∧ (Pc.sigsuspend = .loop → fgCount [⟨1, 5, .FG⟩] = 0) ∧
      ∀ pid, fgProcessGroup [⟨1, 5, .FG⟩] = some pid →
        fgCount [⟨1, 5, .FG⟩] = 1 ∧ ∃ j ∈ [(⟨1, 5, .FG⟩ : Job)], j.state = .FG ∧ j.pid = pid :=
  ⟨by decide, fg_job_unique emptyMask [.eval (.builtinNone true), .fork 5, .next, .next]
    ⟨.sigsuspend, maskSelected, emptyMask, [⟨1, 5, .FG⟩], 2, emptyMask, [⟨5, .running⟩]⟩ (by decide)⟩

/-! ## The job list tracks the children -/

/-- Every child whose stop `waitpid` has reported has a job in state `ST`. -/
def StoppedHaveST (jobs : List Job) (children : List Child) : Prop :=
  ∀ c ∈ children, c.status = .stopped true → ∃ j ∈ jobs, j.pid = c.pid ∧ j.state = .ST

/-- The `waitpid` loop of `sigchld_handler`, from a job list that has a job for every child
(`done` are the children already looked at and kept): it keeps a job exactly for the children it
keeps, and gives every stop it reports a job in state `ST`. -/
theorem reapChildren_tracks {n : Nat} (cs : List Child) : ∀ (done : List Child) (jobs : List Job),
    JidsOk jobs n → (jobs.map Job.pid).Perm ((done ++ cs).map Child.pid) →
    ((done ++ cs).map Child.pid).Nodup → StoppedHaveST jobs (done ++ cs) →
    JidsOk (reapChildren jobs cs).1 n ∧
      ((reapChildren jobs cs).1.map Job.pid).Perm ((done ++ (reapChildren jobs cs).2).map Child.pid) ∧
      ((reapChildren jobs cs).2.map Child.pid).Sublist (cs.map Child.pid) ∧
      StoppedHaveST (reapChildren jobs cs).1 (done ++ (reapChildren jobs cs).2) := by
  induction cs with
  | nil => intro done jobs hj hp _ hs; exact ⟨hj, hp, List.Sublist.refl _, hs⟩
  | cons c cs ih =>
    intro done jobs hj hp hnd hs
    have hpn : (jobs.map Job.pid).Nodup := hp.nodup_iff.2 hnd
    have hc : ∀ x ∈ done ++ cs, x.pid ≠ c.pid := by
      rw [List.map_append, List.map_cons, List.nodup_middle, List.nodup_cons] at hnd
      intro x hx hxc
      exact hnd.1 (hxc ▸ by simpa using List.mem_map_of_mem Child.pid hx)
    have hcj : ∃ j ∈ jobs, j.pid = c.pid := by simpa using hp.mem_iff.2 (by simp)
    unfold reapChildren
    split
    · -- an unreported stop: `job_set_state(job_from_pid(pid), ST)`
      have hmap : jobSetState jobs (jobFromPid jobs c.pid) .ST =
          jobs.map fun j => if j.pid = c.pid then { j with state := .ST } else j :=
        jobSetState_jobFromPid hj hpn
      have hst : StoppedHaveST (jobSetState jobs (jobFromPid jobs c.pid) .ST)
          (done ++ [⟨c.pid, .stopped true⟩] ++ cs) := by
        intro x hx hxs
        rw [hmap]
        simp only [List.mem_append, List.mem_singleton] at hx
        rcases hx with (hx | rfl) | hx
        · obtain ⟨j, hj, hjp, hjs⟩ := hs x (by simp [hx]) hxs
          exact ⟨j, List.mem_map.2 ⟨j, hj, by simp [hjp, hc x (by simp [hx])]⟩, hjp, hjs⟩
        · obtain ⟨j, hj, hjp⟩ := hcj
          exact ⟨{ j with state := .ST }, List.mem_map.2 ⟨j, hj, by simp [hjp]⟩, hjp, rfl⟩
        · obtain ⟨j, hj, hjp, hjs⟩ := hs x (by simp [hx]) hxs
          exact ⟨j, List.mem_map.2 ⟨j, hj, by simp [hjp, hc x (by simp [hx])]⟩, hjp, hjs⟩
      obtain ⟨h1, h2, h3, h4⟩ := ih (done ++ [⟨c.pid, .stopped true⟩]) _ hj.jobSetState
        (by simpa using hp) (by simpa using hnd) hst
      exact ⟨h1, by simpa using h2, by simpa using h3, by simpa using h4⟩
    · -- a termination: `delete_job(job_from_pid(pid))`
      have hdel : ((deleteJob jobs (jobFromPid jobs c.pid)).map Job.pid).Perm
          ((done ++ cs).map Child.pid) := by
        have hsame : ∀ p ∈ (done ++ cs).map Child.pid, decide (p ≠ c.pid) = true := by
          simp only [List.mem_map, decide_eq_true_eq]; rintro _ ⟨x, hx, rfl⟩; exact hc x hx
        have := hp.filter fun p => p ≠ c.pid
        rw [List.filter_map] at this
        rw [deleteJob_jobFromPid hj hpn]
        convert this using 1
        rw [← List.filter_eq_self.2 hsame]
        simp [List.filter_append, List.filter_cons]
      have hst : StoppedHaveST (deleteJob jobs (jobFromPid jobs c.pid)) (done ++ cs) := by
        intro x hx hxs
        obtain ⟨j, hj', hjp, hjs⟩ := hs x (by simp at hx ⊢; tauto) hxs
        rw [deleteJob_jobFromPid hj hpn]
        exact ⟨j, List.mem_filter.2 ⟨hj', by simp [hjp, hc x hx]⟩, hjp, hjs⟩
      obtain ⟨h1, h2, h3, h4⟩ := ih done _ hj.deleteJob hdel
        (by simpa using (List.nodup_middle.1 (by simpa using hnd)).of_cons) hst
      exact ⟨h1, h2, h3.cons _, h4⟩
    · -- nothing to report
      obtain ⟨h1, h2, h3, h4⟩ := ih (done ++ [c]) jobs hj (by simpa using hp) (by simpa using hnd)
        (by simpa using hs)
      exact ⟨h1, by simpa using h2, by simpa using h3, by simpa using h4⟩

@[simp] theorem setStatus_map_pid (cs : List Child) (pid : Int) (st : ChildStatus) :
    (setStatus cs pid st).map Child.pid = cs.map Child.pid := by
  simp only [setStatus, List.map_map]
  exact List.map_congr_left fun c _ => by simp only [Function.comp]; split <;> rfl

@[simp] theorem continueGroup_map_pid (cs : List Child) (pid : Int) :
    (continueGroup cs pid).map Child.pid = cs.map Child.pid := by
  simp only [continueGroup, List.map_map]
  exact List.map_congr_left fun c _ => by simp only [Function.comp]; split <;> rfl

/-- A child event never makes a reported stop: such children were there before. -/
theorem mem_of_mem_setStatus {cs : List Child} {pid : Int} {st : ChildStatus} {c : Child}
    (hst : st ≠ .stopped true) (hc : c ∈ setStatus cs pid st) (hs : c.status = .stopped true) :
    c ∈ cs := by
  obtain ⟨x, hx, rfl⟩ := List.mem_map.1 hc
  split at hs
  · exact absurd hs hst
  · simp [*]

/-- After `kill(-pid, SIGCONT)`, a child with a reported stop is another child than `pid`. -/
theorem mem_of_mem_continueGroup {cs : List Child} {pid : Int} {c : Child}
    (hc : c ∈ continueGroup cs pid) (hs : c.status = .stopped true) : c ∈ cs ∧ c.pid ≠ pid := by
  obtain ⟨x, hx, rfl⟩ := List.mem_map.1 hc
  split at hs
  · cases hs
  · rename_i h
    simp only [h, if_false]
    exact ⟨hx, fun hp => h ⟨hp, by simp [hs, ChildStatus.isStopped]⟩⟩

/-- `handle_parent_process` between `fork` and `add_job`. -/
def Pc.isParent : Pc → Bool
  | .parent _ _ => true
  | _ => false

/-- The invariant behind `jobs_track_children`, in runs where `fork` does not fail. -/
structure TrackInv (s : Shell) : Prop where
  jids : JidsOk s.jobs s.nextJid
  next_pos : 0 < s.nextJid
  nodup : (s.children.map Child.pid).Nodup
  /-- `handle_builtin_none` blocks SIGCHLD before `fork`. -/
  blocked : ∀ fg, s.pc = .builtinNone fg → s.mask.chld = true
  /-- Between `fork` and `add_job`, SIGCHLD is blocked and the new child is the one without a
  job. -/
  window : ∀ fg pid, s.pc = .parent fg pid → s.mask.chld = true ∧
    pid ∈ s.children.map Child.pid ∧ (s.jobs.map Job.pid).Perm ((s.children.map Child.pid).erase pid)
  /-- Everywhere else every child has a job, and every job a child. -/
  tracked : s.pc.isParent = false → (s.jobs.map Job.pid).Perm (s.children.map Child.pid)
  stopped : StoppedHaveST s.jobs s.children

section TrackInv
variable {s s' : Shell}

theorem TrackInv.init (mask : SigSet) : TrackInv (init mask) :=
  ⟨(FgInv.init mask).jids, Nat.one_pos, List.nodup_nil, nofun, nofun, fun _ => List.Perm.nil,
    fun _ h => absurd h (List.not_mem_nil _)⟩

/-- A step outside the `fork`-`add_job` window that keeps the jobs and the children. -/
theorem TrackInv.of_same (hi : TrackInv s) (hj : s'.jobs = s.jobs) (hn : s'.nextJid = s.nextJid)
    (hc : s'.children = s.children) (hp : s.pc.isParent = false) (hp' : s'.pc.isParent = false)
    (hb : ∀ fg, s'.pc = .builtinNone fg → s'.mask.chld = true) : TrackInv s' := by
  refine ⟨hj ▸ hn ▸ hi.jids, hn ▸ hi.next_pos, hc ▸ hi.nodup, hb, fun fg pid h => ?_,
    fun _ => hj ▸ hc ▸ hi.tracked hp, hj ▸ hc ▸ hi.stopped⟩
  simp [h, Pc.isParent] at hp'

theorem TrackInv.jobs_nodup (hi : TrackInv s) (hp : s.pc.isParent = false) :
    (s.jobs.map Job.pid).Nodup :=
  (hi.tracked hp).nodup_iff.2 hi.nodup

theorem TrackInv.next (hi : TrackInv s) (h : Tsh.next s = some s') : TrackInv s' := by
  unfold Tsh.next at h
  split at h <;> cases h
  case h_1 hpc =>
    exact hi.of_same rfl rfl rfl (by simp [hpc, Pc.isParent]) rfl fun _ h => by cases h
  case h_2 bg arg hpc =>
    refine hi.of_same (by simp) (by simp) (by simp) (by simp [hpc, Pc.isParent]) ?_ fun fg h => ?_
    all_goals rcases handleBuiltinBgFg_pc (s := s) bg arg with h' | ⟨pid, h'⟩ <;> simp_all [Pc.isParent]
  case h_3 bg pid hpc =>
    have hp : s.pc.isParent = false := by simp [hpc, Pc.isParent]
    refine ⟨by simpa using hi.jids.jobSetState, by simpa using hi.next_pos, by simpa using hi.nodup,
      fun fg h => by cases bg <;> simp at h, fun fg p h => by cases bg <;> simp at h,
      fun _ => by simpa using hi.tracked hp, ?_⟩
    intro c hc hcs
    rw [handleJob_children] at hc
    obtain ⟨hc, hne⟩ := mem_of_mem_continueGroup hc hcs
    obtain ⟨j, hj, hjp, hjs⟩ := hi.stopped c hc hcs
    rw [handleJob_jobs, jobSetState_jobFromPid hi.jids (hi.jobs_nodup hp)]
    exact ⟨j, List.mem_map.2 ⟨j, hj, by simp [hjp, hne]⟩, hjp, hjs⟩
  case h_4 hpc =>
    have hp : s.pc.isParent = false := by simp [hpc, Pc.isParent]
    split_ifs
    · exact hi.of_same rfl rfl rfl hp rfl fun _ h => by cases h
    · exact hi.of_same rfl rfl rfl hp rfl fun _ h => by cases h
  case h_5 fg pid hpc =>
    obtain ⟨-, hmem, hperm⟩ := hi.window fg pid hpc
    refine ⟨by simpa using hi.jids.addJob hi.next_pos, by simp, by simpa using hi.nodup,
      fun _ h => by cases fg <;> simp at h, fun _ _ h => by cases fg <;> simp at h, fun _ => ?_, ?_⟩
    · simp only [handleParentProcess_jobs, handleParentProcess_children, addJob, List.map_append,
        List.map_singleton]
      exact ((hperm.append_right _).trans (List.perm_append_singleton _ _)).trans
        (List.perm_cons_erase hmem).symm
    · intro c hc hcs
      obtain ⟨j, hj, hjp, hjs⟩ := hi.stopped c (by simpa using hc) hcs
      exact ⟨j, by simp [addJob, hj], hjp, hjs⟩

/-- A handler keeps the mask, and moves only from `sigsuspend` to the wait loop's test. -/
theorem TrackInv.handle (hi : TrackInv s) {sig : Sig} (hblk : s.blocked.get sig = false) :
    TrackInv (handle s sig) := by
  have hpar : (Tsh.handle s sig).pc.isParent = s.pc.isParent := by
    rw [handle_pc]; split_ifs with h <;> simp [h, Pc.isParent]
  have hpc : ∀ q, q.isParent = true ∨ (∃ fg, q = .builtinNone fg) →
      (Tsh.handle s sig).pc = q → s.pc = q := by
    intro q hq h; rw [handle_pc] at h; split_ifs at h
    · subst h; simp [Pc.isParent] at hq
    · exact h
  have hwin : ∀ fg pid, (Tsh.handle s sig).pc = .parent fg pid → s.pc = .parent fg pid :=
    fun fg pid => hpc _ (.inl rfl)
  have hblocked : ∀ fg, (Tsh.handle s sig).pc = .builtinNone fg → (Tsh.handle s sig).mask.chld = true :=
    fun fg h => by rw [handle_mask]; exact hi.blocked fg (hpc _ (.inr ⟨fg, rfl⟩) h)
  cases sig
  case chld =>
    have hp : s.pc.isParent = false := by
      cases hq : s.pc <;> simp only [Pc.isParent]
      case parent fg pid =>
        have := (hi.window fg pid hq).1
        simp [Shell.blocked, hq, SigSet.get, this] at hblk
    obtain ⟨h1, h2, h3, h4⟩ := reapChildren_tracks s.children [] s.jobs hi.jids
      (by simpa using hi.tracked hp) (by simpa using hi.nodup) (by simpa using hi.stopped)
    refine ⟨h1, hi.next_pos, ?_, hblocked, fun fg pid h => ?_, fun _ => by simpa using h2,
      by simpa using h4⟩
    · exact hi.nodup.sublist h3
    · simp [hwin fg pid h, Pc.isParent] at hp
  all_goals
    exact ⟨hi.jids, hi.next_pos, hi.nodup, hblocked, fun fg pid h => hi.window fg pid (hwin fg pid h),
      fun h => hi.tracked (hpar ▸ h), hi.stopped⟩

theorem TrackInv.childEvent (hi : TrackInv s) {pid : Int} {ok : ChildStatus → Bool}
    {st : ChildStatus} (hst : st ≠ .stopped true) (h : Tsh.childEvent s pid ok st = some s') :
    TrackInv s' := by
  obtain rfl := childEvent_eq h
  exact ⟨hi.jids, hi.next_pos, by simpa using hi.nodup, hi.blocked,
    fun fg p h => by simpa using hi.window fg p h, fun h => by simpa using hi.tracked h,
    fun c hc hcs => hi.stopped c (mem_of_mem_setStatus hst hc hcs) hcs⟩

theorem TrackInv.step (hi : TrackInv s) {a : Act} (ha : a ≠ .fork (-1))
    (h : Tsh.step s a = some s') : TrackInv s' := by
  cases a with
  | eval cmd =>
    simp only [Tsh.step] at h; split_ifs at h with hpc; cases h
    refine hi.of_same (by simp) (by simp) (by simp) (by simp [hpc, Pc.isParent]) ?_ fun fg h => ?_
    · cases cmd with
      | bgFg _ arg => cases arg <;> simp [eval, blockSignals, hpc, Pc.isParent]
      | _ => simp [eval, blockSignals, hpc, Pc.isParent]
    · cases cmd with
      | bgFg _ arg => cases arg <;> simp_all [eval, blockSignals]
      | _ => simp_all [eval, blockSignals, maskSelected]
  | next => exact hi.next h
  | openFails =>
    simp only [Tsh.step] at h; split_ifs at h with hpc; cases h
    exact hi.of_same rfl rfl rfl (by simp [hpc, Pc.isParent]) rfl nofun
  | fork pid =>
    simp only [Tsh.step, Tsh.fork] at h
    split at h
    · rename_i fg hpc
      split_ifs at h with h1 h2
      · exact absurd (by rw [h1]) ha
      cases h
      obtain ⟨-, hfresh⟩ := h2
      have hp : s.pc.isParent = false := by simp [hpc, Pc.isParent]
      refine ⟨hi.jids, hi.next_pos, ?_, nofun, fun fg' pid' h' => ?_, nofun, ?_⟩
      · simpa using hi.nodup.append (List.nodup_singleton _) (by simpa using hfresh)
      · cases h'
        refine ⟨hi.blocked fg hpc, by simp, ?_⟩
        rw [List.map_append, List.erase_append_right _ hfresh]
        simpa using hi.tracked hp
      · intro c hc hcs
        rcases List.mem_append.1 hc with hc | hc
        · exact hi.stopped c hc hcs
        · simp only [List.mem_singleton] at hc; subst hc; cases hcs
    · cases h
  | handler sig =>
    simp only [Tsh.step] at h; split_ifs at h with hg; cases h
    exact hi.handle hg.2.2
  | childStops pid => simp only [Tsh.step] at h; exact hi.childEvent (by decide) h
  | childContinues pid => simp only [Tsh.step] at h; exact hi.childEvent (by decide) h
  | childTerminates pid => simp only [Tsh.step] at h; exact hi.childEvent (by decide) h
  | signal sig => cases h; exact ⟨hi.1, hi.2, hi.3, hi.4, hi.5, hi.6, hi.7⟩

theorem TrackInv.run (hi : TrackInv s) {acts : List Act} (ha : ∀ a ∈ acts, a ≠ .fork (-1))
    (h : Tsh.run s acts = some s') : TrackInv s' := by
  induction acts generalizing s with
  | nil => cases h; exact hi
  | cons a acts ih =>
    simp only [Tsh.run, Option.bind_eq_some] at h
    obtain ⟨t, ht, h⟩ := h
    exact ih (hi.step (ha a (List.mem_cons_self _ _)) ht)
      (fun b hb => ha b (List.mem_cons_of_mem _ hb)) h

end TrackInv

/-- In runs where `fork` does not fail: a child without a job is the one `handle_parent_process`
is about to add, and SIGCHLD is blocked then; everywhere outside that window between `fork` and
`add_job`, the read loop after a failed `jobs > file` included, the pids of the job list are
exactly the children `waitpid` has not reaped, and SIGCHLD is unblocked only outside it; a child
reported stopped has a job in state `ST`. -/
theorem jobs_track_children (mask : SigSet) (acts : List Act) (s : Shell)
    (hfork : ∀ a ∈ acts, a ≠ .fork (-1)) (h : run (init mask) acts = some s) :
    (∀ c ∈ s.children, c.pid ∉ s.jobs.map Job.pid →
      ∃ fg, s.pc = .parent fg c.pid ∧ s.blocked.chld = true) ∧
    (s.pc.isParent = false → (s.jobs.map Job.pid).Perm (s.children.map Child.pid)) ∧
    (s.blocked.chld = false → s.pc.isParent = false) ∧
    StoppedHaveST s.jobs s.children := by
  have hi := (TrackInv.init mask).run hfork h
  have hblk : ∀ fg pid, s.pc = .parent fg pid → s.blocked.chld = true := fun fg pid hpc => by
    simp [Shell.blocked, hpc, (hi.window fg pid hpc).1]
  refine ⟨fun c hc hcj => ?_, hi.tracked, fun hb => ?_, hi.stopped⟩
  · cases hq : s.pc
    case parent fg pid =>
      obtain ⟨-, -, hperm⟩ := hi.window fg pid hq
      have hc' : c.pid = pid := by
        by_contra hne
        exact hcj (hperm.mem_iff.2 ((List.mem_erase_of_ne hne).2 (List.mem_map_of_mem _ hc)))
      exact ⟨fg, by rw [hc'], hblk fg pid hq⟩
    all_goals
      exact absurd ((hi.tracked (by simp [hq, Pc.isParent])).mem_iff.2 (List.mem_map_of_mem _ hc)) hcj
  · cases hq : s.pc <;> simp only [Pc.isParent]
    case parent fg pid => simp [hblk fg pid hq] at hb

/-- A background job stopped and reported, then `jobs > file` whose `open` fails: back in the
read loop with SIGCHLD still blocked, the job list tracks the children. -/
theorem jobs_track_children_after_failed_jobs :
    (∀ a ∈ [Act.eval (.builtinNone false), .fork 7, .next, .childStops 7, .handler .chld,
      .eval (.jobs true), .openFails], a ≠ .fork (-1)) ∧
    run (init emptyMask) [.eval (.builtinNone false), .fork 7, .next, .childStops 7,
        .handler .chld, .eval (.jobs true), .openFails] =
      some ⟨.loop, maskSelected, emptyMask, [⟨1, 7, .ST⟩], 2, emptyMask, [⟨7, .stopped true⟩]⟩ ∧
    ((∀ c ∈ [(⟨7, .stopped true⟩ : Child)], c.pid ∉ [(⟨1, 7, .ST⟩ : Job)].map Job.pid →
      ∃ fg, Pc.loop = .parent fg c.pid ∧ maskSelected.chld = true) ∧
    (Pc.loop.isParent = false →
      ([(⟨1, 7, .ST⟩ : Job)].map Job.pid).Perm ([(⟨7, .stopped true⟩ : Child)].map Child.pid)) ∧
    (maskSelected.chld = false → Pc.loop.isParent = false) ∧
    StoppedHaveST [⟨1, 7, .ST⟩] [⟨7, .stopped true⟩]) :=
  ⟨by decide, by decide,
    jobs_track_children emptyMask [.eval (.builtinNone false), .fork 7, .next, .childStops 7,
      .handler .chld, .eval (.jobs true), .openFails]
      ⟨.loop, maskSelected, emptyMask, [⟨1, 7, .ST⟩], 2, emptyMask, [⟨7, .stopped true⟩]⟩
      (by decide) (by decide)⟩

/-! ## The error path of `jobs` -/

/-- `jobs > file` when the `open` fails: `handle_builtin_jobs` returns before its
`sigprocmask(SIG_SETMASK, &previousMask, NULL)`, so `eval` is back in the read loop with
`SIGINT`, `SIGCHLD` and `SIGTSTP` blocked on top of the mask it was entered with. -/
theorem jobs_open_failure_leaves_selected_blocked (s : Shell) (h : s.pc = .loop) :
    run s [.eval (.jobs true), .openFails] =
      some { s with mask := s.mask.union maskSelected, previousMask := s.mask } := by
  simp [run, Tsh.step, h, eval, blockSignals]

/-- Entered with no signal blocked, `eval` returns with the three blocked. -/
theorem jobs_open_failure_from_empty_mask :
    (init emptyMask).pc = .loop ∧
      run (init emptyMask) [.eval (.jobs true), .openFails] =
        some { init emptyMask with mask := maskSelected, previousMask := emptyMask } ∧
      maskSelected ≠ emptyMask :=
  ⟨rfl, jobs_open_failure_leaves_selected_blocked (init emptyMask) rfl, by decide⟩

end SystemsLabs.Tsh
