import SystemsLabs.Shell.Jobs

/-!
# The signal mask across runs of `tsh`

Every helper of `eval` blocks signals with `sigprocmask(SIG_BLOCK, set, &previousMask)` and
restores `previousMask` on its way out, on its error paths too: `parse_argument` restores it
before each `return -1`, and a failed `fork` goes through `handle_parent_process` like a good
one. The one exception is a failing `open` in `handle_builtin_jobs`, which returns early
(`jobs_open_failure_leaves_selected_blocked`).

`mask_at_loop`: in every run whose `fork`s succeed, the shell is back in the read loop with
the mask it was started with, until a `jobs > file` fails to open its file; from then on
`SIGINT`, `SIGCHLD` and `SIGTSTP` stay added to it, and nothing more is ever added. Inside
`sigsuspend` the shell waits with that same mask. The invariant is `MaskInv m`, with `m` the
mask of the read loop; only the failing `open` moves it, to `m ∪ maskSelected`, which a second
failure leaves as it is.

`open_failure_hangs_fg`: so after a failed `open` the next foreground command hangs the shell.
`sigsuspend(previousMask)` then waits with the three signals blocked, no handler can run
(`stuck_step`), and the foreground job is never reaped; ctrl-c and ctrl-z are blocked too.

`parse_argument` compares the pid it found with `-1`, the value of its error path. A job whose
pid is `-1` would take the early `return` without the restore; only a failed `fork` gives one
(`add_job(-1, ...)`), hence the hypothesis on `fork`.
-/

namespace SystemsLabs.Tsh

theorem SigSet.union_union_self (a b : SigSet) : (a.union b).union b = a.union b := by
  simp only [SigSet.union, Bool.or_assoc, Bool.or_self]

/-! ## `parse_argument` and the pids of the job list -/

section BgFg
variable {s : Shell}

theorem jobFromPid_ne_zero {jobs : List Job} {pid : Int} (h : jobFromPid jobs pid ≠ 0) :
    pid ∈ jobs.map Job.pid := by
  unfold jobFromPid at h
  cases hf : jobs.find? fun j => j.pid = pid with
  | none => simp [hf] at h
  | some j =>
    exact List.mem_map.2 ⟨j, List.mem_of_find?_eq_some hf, by simpa using List.find?_some hf⟩

theorem jobGetPid_ne {jobs : List Job} (hp : -1 ∉ jobs.map Job.pid) (jid : Nat) :
    jobGetPid jobs jid ≠ -1 := by
  unfold jobGetPid
  cases hf : jobs.find? fun j => j.jid = jid with
  | none => decide
  | some j => exact fun h => hp (List.mem_map.2 ⟨j, List.mem_of_find?_eq_some hf, h⟩)

@[simp] theorem handleBuiltinBgFg_previousMask (bg : Bool) (arg : Arg) :
    (handleBuiltinBgFg s bg arg).previousMask = s.previousMask := by
  cases arg <;> simp only [handleBuiltinBgFg, parseArgument] <;> split_ifs <;> rfl

/-- `handle_builtin_bg_fg` returns to the read loop only through a restore of `previousMask`,
as long as no job has pid `-1`. -/
theorem handleBuiltinBgFg_mask (hp : -1 ∉ s.jobs.map Job.pid) (bg : Bool) (arg : Arg)
    (hl : (handleBuiltinBgFg s bg arg).pc = .loop) :
    (handleBuiltinBgFg s bg arg).mask = s.previousMask := by
  unfold handleBuiltinBgFg parseArgument at hl ⊢
  cases arg with
  | jobId jid =>
    by_cases h1 : jid = 0 ∨ jobExists s.jobs jid = false
    · simp only [h1, if_true]
    · simp [h1, jobGetPid_ne hp jid] at hl
  | processId pid =>
    by_cases h1 : pid = 0
    · simp only [h1, if_true]
    by_cases h2 : jobFromPid s.jobs pid = 0
    · simp only [h1, h2, if_true, if_false]
    · have hpid : pid ≠ -1 := fun h => hp (h ▸ jobFromPid_ne_zero h2)
      simp [h1, h2, hpid] at hl

end BgFg

/-! ## The invariant -/

/-- The mask of the read loop is `m`: every helper of `eval` saved `m` as its `previousMask`,
`handle_builtin_jobs` added `maskSelected` to it, and no job or child about to be added has
pid `-1`. -/
structure MaskInv (m : SigSet) (s : Shell) : Prop where
  loop : s.pc = .loop → s.mask = m
  previous : s.pc ≠ .loop → s.pc ≠ .exited → s.previousMask = m
  jobs : ∀ outfile, s.pc = .jobs outfile → s.mask = m.union maskSelected
  pids : -1 ∉ s.jobs.map Job.pid
  parent : ∀ fg pid, s.pc = .parent fg pid → pid ≠ -1

section MaskInv
variable {m : SigSet} {s s' : Shell}

theorem MaskInv.init (mask : SigSet) : MaskInv mask (init mask) :=
  ⟨fun _ => rfl, fun h => absurd rfl h, nofun, by simp [Tsh.init], nofun⟩

/-- `sigprocmask(SIG_SETMASK, &previousMask, NULL)` from inside `eval` lands on `m`. -/
theorem MaskInv.returnToLoop (hi : MaskInv m s) (hl : s.pc ≠ .loop) (hx : s.pc ≠ .exited) :
    MaskInv m (returnToLoop s) :=
  ⟨fun _ => hi.previous hl hx, fun h => absurd rfl h, nofun, hi.pids, nofun⟩

/-- A step inside `eval` to the wait loop or to `handle_job`, keeping `previousMask`. -/
theorem MaskInv.inside (hprev : s'.previousMask = m)
    (hpids : -1 ∉ s'.jobs.map Job.pid)
    (hpc : s'.pc = .fgWait ∨ s'.pc = .sigsuspend ∨ ∃ bg pid, s'.pc = .handleJob bg pid) :
    MaskInv m s' := by
  refine ⟨fun h => ?_, fun _ _ => hprev, fun _ h => ?_, hpids, fun _ _ h => ?_⟩ <;>
    rcases hpc with hp | hp | ⟨_, _, hp⟩ <;> simp [hp] at h

/-- A step that keeps the masks and the pids, and moves the pc at most from `sigsuspend` back
to the test of the wait loop. -/
theorem MaskInv.of_same (hi : MaskInv m s) (hm : s'.mask = s.mask)
    (hprev : s'.previousMask = s.previousMask) (hpids : -1 ∉ s'.jobs.map Job.pid)
    (hpc : s'.pc = s.pc ∨ s.pc = .sigsuspend ∧ s'.pc = .fgWait) : MaskInv m s' := by
  rcases hpc with hpc | ⟨hs, hpc⟩
  · exact ⟨hpc ▸ hm ▸ hi.loop, hpc ▸ hprev ▸ hi.previous, fun o h => hm ▸ hi.jobs o (hpc ▸ h),
      hpids, fun fg pid h => hi.parent fg pid (hpc ▸ h)⟩
  · exact MaskInv.inside (hprev ▸ hi.previous (by simp [hs]) (by simp [hs])) hpids (.inl hpc)

theorem MaskInv.next (hi : MaskInv m s) (h : Tsh.next s = some s') : MaskInv m s' := by
  unfold Tsh.next at h
  split at h <;> cases h
  case h_1 o hpc => exact hi.returnToLoop (by simp [hpc]) (by simp [hpc])
  case h_2 bg arg hpc =>
    have hprev := hi.previous (by simp [hpc]) (by simp [hpc])
    rcases handleBuiltinBgFg_pc (s := s) bg arg with hl | ⟨pid, hl⟩
    · refine ⟨fun _ => ?_, fun h => absurd hl h, fun _ h => by simp [hl] at h,
        by simpa using hi.pids, fun _ _ h => by simp [hl] at h⟩
      rw [handleBuiltinBgFg_mask hi.pids bg arg hl, hprev]
    · exact MaskInv.inside (by simpa using hprev) (by simpa using hi.pids)
        (.inr (.inr ⟨bg, pid, hl⟩))
  case h_3 bg pid hpc =>
    have hprev := hi.previous (by simp [hpc]) (by simp [hpc])
    cases bg
    · exact MaskInv.inside hprev (by simpa [handleJob] using hi.pids) (.inl rfl)
    · have h1 : MaskInv m
          { s with jobs := jobSetState s.jobs (jobFromPid s.jobs pid) .BG,
                   children := continueGroup s.children pid } :=
        hi.of_same rfl rfl (by simpa using hi.pids) (.inl rfl)
      exact h1.returnToLoop (by simp [hpc]) (by simp [hpc])
  case h_4 hpc =>
    split_ifs
    · exact MaskInv.inside (hi.previous (by simp [hpc]) (by simp [hpc])) hi.pids (.inr (.inl rfl))
    · exact hi.returnToLoop (by simp [hpc]) (by simp [hpc])
  case h_5 fg pid hpc =>
    have hpids : -1 ∉ (addJob s.jobs s.nextJid pid (if fg then .FG else .BG)).map Job.pid := by
      simpa [addJob, hi.pids] using (hi.parent fg pid hpc).symm
    cases fg
    · have h1 : MaskInv m
          { s with jobs := addJob s.jobs s.nextJid pid .BG, nextJid := s.nextJid + 1 } :=
        hi.of_same rfl rfl hpids (.inl rfl)
      exact h1.returnToLoop (by simp [hpc]) (by simp [hpc])
    · exact MaskInv.inside (hi.previous (by simp [hpc]) (by simp [hpc])) hpids (.inl rfl)

@[simp] theorem handle_previousMask (sig : Sig) : (handle s sig).previousMask = s.previousMask := by
  cases sig <;> rfl

/-- Every step but the failing `open` and a failing `fork` keeps the mask of the read loop. -/
theorem MaskInv.step (hi : MaskInv m s) {a : Act} (ho : a ≠ .openFails) (hf : a ≠ .fork (-1))
    (h : step s a = some s') : MaskInv m s' := by
  cases a with
  | eval cmd =>
    simp only [Tsh.step] at h; split_ifs at h with hpc; cases h
    have hm := hi.loop hpc
    cases cmd with
    | empty => exact hi
    | quit => exact ⟨nofun, fun _ h => absurd rfl h, nofun, hi.pids, nofun⟩
    | jobs o => exact ⟨nofun, fun _ _ => hm, fun _ _ => hm ▸ rfl, hi.pids, nofun⟩
    | bgFg bg arg =>
      cases arg
      · exact hi
      · exact ⟨nofun, fun _ _ => hm, nofun, hi.pids, nofun⟩
    | builtinNone fg => exact ⟨nofun, fun _ _ => hm, nofun, hi.pids, nofun⟩
  | next => exact hi.next h
  | openFails => exact absurd rfl ho
  | fork pid =>
    simp only [Tsh.step, Tsh.fork] at h
    split at h
    case h_1 fg hpc =>
      have hprev := hi.previous (by simp [hpc]) (by simp [hpc])
      split_ifs at h with h1 h2
      · exact absurd (congrArg Act.fork h1) hf
      · cases h
        exact ⟨nofun, fun _ _ => hprev, nofun, hi.pids, fun _ _ h => by cases h; omega⟩
    case h_2 => cases h
  | handler sig =>
    simp only [Tsh.step] at h; split_ifs at h; cases h
    refine hi.of_same (handle_mask sig) (handle_previousMask sig) ?_ ?_
    · rw [handle_jobs]; split_ifs
      · exact reapChildren_jobs (fun jobs => -1 ∉ jobs.map Job.pid) (fun _ _ h => by simpa using h)
          (fun _ _ h hm => h (List.map_subset _ (List.filter_subset' _) hm)) _ _ hi.pids
      · exact hi.pids
    · rw [handle_pc]; split_ifs with hs
      · exact .inr ⟨hs, rfl⟩
      · exact .inl rfl
  | childStops pid | childContinues pid | childTerminates pid =>
    simp only [Tsh.step] at h; obtain rfl := childEvent_eq h
    exact hi.of_same rfl rfl hi.pids (.inl rfl)
  | signal sig => cases h; exact hi.of_same rfl rfl hi.pids (.inl rfl)

/-- The failing `open` returns to the read loop with `maskSelected` still added. -/
theorem MaskInv.openFails (hi : MaskInv m s) (h : Tsh.step s .openFails = some s') :
    MaskInv (m.union maskSelected) s' := by
  simp only [Tsh.step] at h; split_ifs at h with hpc; cases h
  exact ⟨fun _ => hi.jobs true hpc, fun h => absurd rfl h, nofun, hi.pids, nofun⟩

theorem MaskInv.run (hi : MaskInv m s) {acts : List Act} (hf : ∀ a ∈ acts, a ≠ .fork (-1))
    (h : Tsh.run s acts = some s') :
    MaskInv (if .openFails ∈ acts then m.union maskSelected else m) s' := by
  induction acts generalizing s m with
  | nil => cases h; simpa using hi
  | cons a acts ih =>
    simp only [Tsh.run, Option.bind_eq_some] at h
    obtain ⟨t, ht, h⟩ := h
    have hf' : ∀ b ∈ acts, b ≠ .fork (-1) := fun b hb => hf b (List.mem_cons_of_mem _ hb)
    by_cases ho : a = .openFails
    · subst ho
      simpa only [List.mem_cons_self, if_true, SigSet.union_union_self, ite_self] using
        ih (hi.openFails ht) hf' h
    · have hmem : Act.openFails ∈ a :: acts ↔ Act.openFails ∈ acts := by simp [Ne.symm ho]
      simpa only [hmem] using ih (hi.step ho (hf a (List.mem_cons_self _ _)) ht) hf' h

end MaskInv

/-- In every run whose `fork`s succeed, whatever the commands, signal deliveries and children:
`eval` is back in the read loop with the mask the shell was started with, and waits in
`sigsuspend` with that mask, until a `jobs > file` fails to open its file; from then on the
mask carries `SIGINT`, `SIGCHLD` and `SIGTSTP` as well, and nothing more. -/
theorem mask_at_loop (mask : SigSet) (acts : List Act) (s : Shell)
    (hfork : ∀ a ∈ acts, a ≠ .fork (-1)) (h : run (init mask) acts = some s) :
    (s.pc = .loop → s.mask = if .openFails ∈ acts then mask.union maskSelected else mask) ∧
      (s.pc = .sigsuspend →
        s.blocked = if .openFails ∈ acts then mask.union maskSelected else mask) := by
  have hi := (MaskInv.init mask).run hfork h
  refine ⟨hi.loop, fun hs => ?_⟩
  rw [Shell.blocked, if_pos hs]
  exact hi.previous (by simp [hs]) (by simp [hs])

/-! ## A foreground job after the failing `open` -/

/-- `sigsuspend` is entered only with a foreground job in the list. -/
def SuspendInv (s : Shell) : Prop := s.pc = .sigsuspend → fgJob s.jobs ≠ 0

section Suspend
variable {s s' : Shell}

/-- `eval` enters `sigsuspend` only from the test of `while (fg_job())`. -/
theorem SuspendInv.of_next (h : Tsh.next s = some s') : SuspendInv s' := by
  intro hs
  unfold Tsh.next at h
  split at h <;> cases h
  case h_1 => simp [returnToLoop] at hs
  case h_2 bg arg _ =>
    rcases handleBuiltinBgFg_pc (s := s) bg arg with hl | ⟨_, hl⟩ <;> simp [hl] at hs
  case h_3 bg pid _ => cases bg <;> simp at hs
  case h_4 =>
    split_ifs at hs ⊢ with hfg
    · exact hfg
    · simp [returnToLoop] at hs
  case h_5 fg pid _ => cases fg <;> simp at hs

theorem SuspendInv.step (hi : SuspendInv s) {a : Act} (h : step s a = some s') :
    SuspendInv s' := by
  intro hs
  cases a with
  | eval cmd =>
    simp only [Tsh.step] at h; split_ifs at h; cases h
    cases cmd with
    | bgFg bg arg => cases arg <;> simp_all [eval, blockSignals]
    | _ => simp_all [eval, blockSignals]
  | next => exact SuspendInv.of_next h hs
  | openFails => simp only [Tsh.step] at h; split_ifs at h; cases h; simp at hs
  | fork pid =>
    simp only [Tsh.step, Tsh.fork] at h
    split at h
    · split_ifs at h <;> cases h <;> simp at hs
    · cases h
  | handler sig =>
    simp only [Tsh.step] at h; split_ifs at h; cases h
    rw [handle_pc] at hs; split_ifs at hs with hp; exact absurd hs hp
  | childStops pid | childContinues pid | childTerminates pid =>
    simp only [Tsh.step] at h; obtain rfl := childEvent_eq h; exact hi hs
  | signal sig => cases h; exact hi hs

theorem SuspendInv.run (hi : SuspendInv s) {acts : List Act} (h : Tsh.run s acts = some s') :
    SuspendInv s' := by
  induction acts generalizing s with
  | nil => cases h; exact hi
  | cons a acts ih =>
    simp only [Tsh.run, Option.bind_eq_some] at h
    obtain ⟨t, ht, h⟩ := h
    exact ih (hi.step ht) h

/-- `SIGINT`, `SIGCHLD` and `SIGTSTP` are all in `set`. -/
def BlocksHandled (set : SigSet) : Prop := set.int = true ∧ set.chld = true ∧ set.tstp = true

/-- Waiting in `sigsuspend` with the three handled signals blocked, no handler can run: every
step leaves the shell there, with its masks and its job list. -/
theorem stuck_step (hs : s.pc = .sigsuspend) (hb : BlocksHandled s.previousMask) {a : Act}
    (h : step s a = some s') :
    s'.pc = .sigsuspend ∧ s'.previousMask = s.previousMask ∧ s'.jobs = s.jobs := by
  cases a with
  | eval _ | next | openFails | fork _ => simp [Tsh.step, Tsh.next, Tsh.fork, hs] at h
  | handler sig =>
    obtain ⟨h1, h2, h3⟩ := hb
    cases sig <;> simp [Tsh.step, Shell.blocked, hs, SigSet.get, h1, h2, h3] at h
  | childStops pid | childContinues pid | childTerminates pid =>
    simp only [Tsh.step] at h; obtain rfl := childEvent_eq h; exact ⟨hs, rfl, rfl⟩
  | signal sig => cases h; exact ⟨hs, rfl, rfl⟩

theorem stuck_run (hs : s.pc = .sigsuspend) (hb : BlocksHandled s.previousMask) {acts : List Act}
    (h : Tsh.run s acts = some s') : s'.pc = .sigsuspend ∧ s'.jobs = s.jobs := by
  induction acts generalizing s with
  | nil => cases h; exact ⟨hs, rfl⟩
  | cons a acts ih =>
    simp only [Tsh.run, Option.bind_eq_some] at h
    obtain ⟨t, ht, h⟩ := h
    obtain ⟨ht1, ht2, ht3⟩ := stuck_step hs hb ht
    obtain ⟨h1, h2⟩ := ih ht1 (ht2 ▸ hb) h
    exact ⟨h1, h2.trans ht3⟩

end Suspend

/-- After a `jobs > file` whose `open` failed, the first foreground job hangs the shell: once it
waits in `sigsuspend`, `SIGINT`, `SIGCHLD` and `SIGTSTP` are blocked there, no handler ever runs,
and whatever happens next (the child stopping or exiting, ctrl-c, ctrl-z) the shell stays in
`sigsuspend` with the job list unchanged and its foreground job never reaped. -/
theorem open_failure_hangs_fg (mask : SigSet) (acts more : List Act) (s s' : Shell)
    (hfork : ∀ a ∈ acts, a ≠ .fork (-1)) (hopen : .openFails ∈ acts)
    (h : run (init mask) acts = some s) (hs : s.pc = .sigsuspend)
    (h' : run s more = some s') :
    s'.pc = .sigsuspend ∧ s'.jobs = s.jobs ∧ fgJob s'.jobs ≠ 0 := by
  have hprev := ((MaskInv.init mask).run hfork h).previous (by simp [hs]) (by simp [hs])
  rw [if_pos hopen] at hprev
  have hb : BlocksHandled s.previousMask := by
    simp [BlocksHandled, hprev, SigSet.union, maskSelected]
  obtain ⟨h1, h2⟩ := stuck_run hs hb h'
  have h0 : SuspendInv (init mask) := by simp [SuspendInv, Tsh.init]
  have hfg : fgJob s.jobs ≠ 0 := h0.run h hs
  exact ⟨h1, h2, h2 ▸ hfg⟩

/-- `jobs > file` fails, then a foreground command: the child exits and ctrl-c is typed, and the
shell still waits in `sigsuspend` on its foreground job. -/
theorem open_failure_hangs_fg_sleep :
    (∀ a ∈ [Act.eval (.jobs true), .openFails, .eval (.builtinNone true), .fork 5, .next, .next],
      a ≠ .fork (-1)) ∧
    Act.openFails ∈ [Act.eval (.jobs true), .openFails, .eval (.builtinNone true), .fork 5, .next,
      .next] ∧
    run (init emptyMask)
        [.eval (.jobs true), .openFails, .eval (.builtinNone true), .fork 5, .next, .next] =
      some ⟨.sigsuspend, maskSelected, maskSelected, [⟨1, 5, .FG⟩], 2, emptyMask, [⟨5, .running⟩]⟩ ∧
    Pc.sigsuspend = .sigsuspend ∧
    run ⟨.sigsuspend, maskSelected, maskSelected, [⟨1, 5, .FG⟩], 2, emptyMask, [⟨5, .running⟩]⟩
        [.childTerminates 5, .signal .chld, .signal .int] =
      some ⟨.sigsuspend, maskSelected, maskSelected, [⟨1, 5, .FG⟩], 2, ⟨true, true, false, false⟩,
        [⟨5, .terminated⟩]⟩ ∧
    (Pc.sigsuspend = .sigsuspend ∧ [(⟨1, 5, .FG⟩ : Job)] = [⟨1, 5, .FG⟩] ∧
      fgJob [⟨1, 5, .FG⟩] ≠ 0) :=
  ⟨by decide, by decide, by decide, rfl, by decide,
    open_failure_hangs_fg emptyMask
      [.eval (.jobs true), .openFails, .eval (.builtinNone true), .fork 5, .next, .next]
      [.childTerminates 5, .signal .chld, .signal .int]
      ⟨.sigsuspend, maskSelected, maskSelected, [⟨1, 5, .FG⟩], 2, emptyMask, [⟨5, .running⟩]⟩
      ⟨.sigsuspend, maskSelected, maskSelected, [⟨1, 5, .FG⟩], 2, ⟨true, true, false, false⟩,
        [⟨5, .terminated⟩]⟩
      (by decide) (by decide) (by decide) rfl (by decide)⟩

/-- A failed `jobs > file`, then a good `jobs`: the three signals stay blocked. -/
theorem mask_at_loop_after_open_failure :
    (∀ a ∈ [Act.eval (.jobs true), .openFails, .eval (.jobs false), .next], a ≠ .fork (-1)) ∧
    run (init emptyMask) [.eval (.jobs true), .openFails, .eval (.jobs false), .next] =
      some ⟨.loop, maskSelected, maskSelected, [], 1, emptyMask, []⟩ ∧
    (Pc.loop = .loop → maskSelected =
      if Act.openFails ∈ [Act.eval (.jobs true), .openFails, .eval (.jobs false), .next] then
        emptyMask.union maskSelected else emptyMask) ∧
    (Pc.loop = .sigsuspend →
      (⟨.loop, maskSelected, maskSelected, [], 1, emptyMask, []⟩ : Shell).blocked =
        if Act.openFails ∈ [Act.eval (.jobs true), .openFails, .eval (.jobs false), .next] then
          emptyMask.union maskSelected else emptyMask) :=
  ⟨by decide, by decide,
    mask_at_loop emptyMask [.eval (.jobs true), .openFails, .eval (.jobs false), .next]
      ⟨.loop, maskSelected, maskSelected, [], 1, emptyMask, []⟩ (by decide) (by decide)⟩

end SystemsLabs.Tsh
