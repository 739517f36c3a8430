import SuBinary.Su.ClientRun

/-! # Giving the terminal back

The terminal is made raw when the standard input is one, and restored after the
pump of the standard output or by the signal handler. Both go by the flag
`stdin_is_raw` and need the standard input to be open.
-/

namespace SuBinary.Su

open SuBinary

/-! ## The steps that lose the terminal -/

def RestorePending (s : ClientState) : Prop :=
  s.stdin.isRaw = true ∧ s.stdin.isOpen = true ∧ s.main ≠ .clearFlag

/-- No signal comes between the change of the terminal and the flag that records
it, and the standard input is not closed while the terminal is to be restored. -/
def KeepsTerminal : ClientEvent → ClientState → Prop
  | .signal _, s => s.main ≠ .setFlag
  | .pump _, s => s.pump = .closeStdin → ¬RestorePending s
  | _, _ => True

/-! ## The invariant -/

/-- The terminal is raw, and all is in place to restore it. -/
structure Held (termios : Termios) (stdin : StdinState) : Prop where
  raw : stdin.termios = makeRaw termios
  saved : stdin.oldStdin = termios
  isOpen : stdin.isOpen = true
  handled : ∀ sig, stdin.handled sig = true

/-- The terminal is as it was, and no restore will find the standard input
open. -/
structure Quiet (termios : Termios) (stdin : StdinState) : Prop where
  restored : stdin.termios = termios
  noRestore : stdin.isRaw = true → stdin.isOpen = false

/-- Before the terminal is made raw; `pending` are the signals without a
handler. -/
structure Early (termios : Termios) (pending : List QuitSignal) (stdin : StdinState) : Prop where
  restored : stdin.termios = termios
  unflagged : stdin.isRaw = false
  handled : stdin.isOpen = true → ∀ sig, sig ∉ pending → stdin.handled sig = true

/-- What holds of the terminal at each point of the main thread. -/
def TerminalKept (termios : Termios) (s : ClientState) : Prop :=
  match s.main with
  | .install sig rest =>
      s.atty.stdin = true ∧ s.pump = .idle ∧ Early termios (sig :: rest) s.stdin
  | .getAttr => s.atty.stdin = true ∧ s.pump = .idle ∧ Early termios [] s.stdin
  | .setRaw =>
      s.atty.stdin = true ∧ s.pump = .idle ∧ Early termios [] s.stdin ∧
        (s.stdin.isOpen = true → s.stdin.oldStdin = termios)
  | .setFlag =>
      s.atty.stdin = true ∧ s.pump = .idle ∧ s.stdin.isRaw = false ∧ Held termios s.stdin
  | .startPump =>
      s.atty.stdin = true ∧ s.pump = .idle ∧
        ((s.stdin.isRaw = true ∧ Held termios s.stdin) ∨ Quiet termios s.stdin)
  | .readPty | .writeOut | .closePty | .testRaw =>
      (s.stdin.isRaw = true ∧ Held termios s.stdin) ∨ Quiet termios s.stdin
  | .restore =>
      (s.stdin.isRaw = true ∧ Held termios s.stdin) ∨
        (s.stdin.termios = termios ∧ s.stdin.isOpen = false)
  | .clearFlag =>
      s.stdin.termios = termios ∧ (s.stdin.isOpen = true → s.stdin.oldStdin = termios)
  | .cleanup | .readCode | .finish => Quiet termios s.stdin

section

variable {termios : Termios} {stdin : StdinState}

theorem Early.quiet {pending : List QuitSignal} (early : Early termios pending stdin) :
    Quiet termios stdin where
  restored := early.restored
  noRestore := fun flagged => by simp [early.unflagged] at flagged

theorem Early.sighandler {pending : List QuitSignal} (early : Early termios pending stdin)
    (others : List QuitSignal) : Early termios others stdin.sighandler := by
  have unchanged : stdin.restoreStdin = stdin := if_pos early.unflagged
  rw [StdinState.sighandler, unchanged]
  exact ⟨early.restored, early.unflagged, fun isOpen => nomatch isOpen⟩

theorem Early.install {sig : QuitSignal} {pending : List QuitSignal}
    (early : Early termios (sig :: pending) stdin) :
    Early termios pending (stdin.install sig) where
  restored := early.restored
  unflagged := early.unflagged
  handled := by
    intro isOpen other notPending
    by_cases same : other = sig
    · simp [StdinState.install, same]
    · simpa [StdinState.install, same] using early.handled isOpen other (by simp [same, notPending])

theorem Early.held (early : Early termios [] stdin) (saved : stdin.oldStdin = termios)
    (isOpen : stdin.isOpen = true) :
    Held termios { stdin with termios := makeRaw stdin.oldStdin } where
  raw := congrArg makeRaw saved
  saved := saved
  isOpen := isOpen
  handled := fun sig => early.handled isOpen sig List.not_mem_nil

theorem Held.sighandler (held : Held termios stdin) (flagged : stdin.isRaw = true) :
    Quiet termios stdin.sighandler := by
  have restores : stdin.restoreStdin =
      { stdin with termios := stdin.oldStdin, isRaw := false } := by
    simp [StdinState.restoreStdin, flagged, held.isOpen]
  rw [StdinState.sighandler, restores]
  exact ⟨held.saved, fun _ => rfl⟩

theorem termios_sighandler_of_closed (closed : stdin.isOpen = false) :
    stdin.sighandler.termios = stdin.termios := by
  unfold StdinState.sighandler StdinState.restoreStdin
  by_cases flagged : stdin.isRaw = false
  · simp [flagged]
  · simp [flagged, closed]

theorem termios_sighandler_of_unflagged (unflagged : stdin.isRaw = false) :
    stdin.sighandler.termios = stdin.termios := by
  simp [StdinState.sighandler, StdinState.restoreStdin, unflagged]

theorem Quiet.sighandler (quiet : Quiet termios stdin) : Quiet termios stdin.sighandler := by
  refine ⟨?_, fun _ => rfl⟩
  by_cases flagged : stdin.isRaw = true
  · rw [termios_sighandler_of_closed (quiet.noRestore flagged), quiet.restored]
  · rw [termios_sighandler_of_unflagged (by simpa using flagged), quiet.restored]

theorem Quiet.close (quiet : Quiet termios stdin) :
    Quiet termios { stdin with isOpen := false } where
  restored := quiet.restored
  noRestore := fun _ => rfl

end

/-! ## Steps -/

section

variable {termios : Termios} {s next : ClientState}

theorem terminalKept_sighandler (kept : TerminalKept termios s) (noWindow : s.main ≠ .setFlag) :
    TerminalKept termios { s with stdin := s.stdin.sighandler } := by
  have heldOrQuiet : (s.stdin.isRaw = true ∧ Held termios s.stdin) ∨ Quiet termios s.stdin →
      Quiet termios s.stdin.sighandler := by
    rintro (⟨flagged, held⟩ | quiet)
    · exact held.sighandler flagged
    · exact quiet.sighandler
  unfold TerminalKept at kept ⊢
  cases point : s.main with
  | install _ _ | getAttr =>
      simp only [point] at kept
      exact ⟨kept.1, kept.2.1, kept.2.2.sighandler _⟩
  | setRaw =>
      simp only [point] at kept
      exact ⟨kept.1, kept.2.1, kept.2.2.1.sighandler _, fun isOpen => nomatch isOpen⟩
  | setFlag => exact absurd point noWindow
  | startPump =>
      simp only [point] at kept
      exact ⟨kept.1, kept.2.1, Or.inr (heldOrQuiet kept.2.2)⟩
  | restore =>
      simp only [point] at kept
      rcases kept with ⟨flagged, held⟩ | ⟨restored, closed⟩
      · exact Or.inr ⟨(held.sighandler flagged).restored, rfl⟩
      · exact Or.inr ⟨(termios_sighandler_of_closed closed).trans restored, rfl⟩
  | clearFlag =>
      simp only [point] at kept
      refine ⟨?_, fun isOpen => nomatch isOpen⟩
      by_cases isOpen : s.stdin.isOpen = true
      · by_cases flagged : s.stdin.isRaw = true
        · simp [StdinState.sighandler, StdinState.restoreStdin, flagged, isOpen, kept.2 isOpen]
        · exact (termios_sighandler_of_unflagged (by simpa using flagged)).trans kept.1
      · exact (termios_sighandler_of_closed (by simpa using isOpen)).trans kept.1
  | readPty | writeOut | closePty | testRaw =>
      simp only [point] at kept
      exact Or.inr (heldOrQuiet kept)
  | cleanup | readCode | finish =>
      simp only [point] at kept
      exact kept.sighandler

/-- While the terminal is raw, every quit signal has its handler. -/
theorem restored_of_unhandled (kept : TerminalKept termios s) (noWindow : s.main ≠ .setFlag)
    {sig : QuitSignal} (unhandled : s.stdin.handled sig = false) : s.stdin.termios = termios := by
  have notHeld : ¬Held termios s.stdin := by
    intro held
    rw [held.handled sig] at unhandled
    cases unhandled
  unfold TerminalKept at kept
  cases point : s.main with
  | install _ _ | getAttr =>
      simp only [point] at kept
      exact kept.2.2.restored
  | setRaw =>
      simp only [point] at kept
      exact kept.2.2.1.restored
  | setFlag => exact absurd point noWindow
  | startPump =>
      simp only [point, notHeld, and_false, false_or] at kept
      exact kept.2.2.restored
  | restore =>
      simp only [point, notHeld, and_false, false_or] at kept
      exact kept.1
  | clearFlag =>
      simp only [point] at kept
      exact kept.1
  | readPty | writeOut | closePty | testRaw =>
      simp only [point, notHeld, and_false, false_or] at kept
      exact kept.restored
  | cleanup | readCode | finish =>
      simp only [point] at kept
      exact kept.restored

theorem terminalKept_close (kept : TerminalKept termios s) (started : s.pump = .closeStdin)
    (notPending : ¬RestorePending s) (pump : PumpPoint) :
    TerminalKept termios { s with stdin := { s.stdin with isOpen := false }, pump } := by
  have notIdle : s.pump ≠ .idle := by simp [started]
  have notHeld : s.main ≠ .clearFlag → ¬(s.stdin.isRaw = true ∧ Held termios s.stdin) :=
    fun elsewhere both => notPending ⟨both.1, both.2.isOpen, elsewhere⟩
  unfold TerminalKept at kept ⊢
  cases point : s.main with
  | install _ _ | getAttr | setRaw | setFlag | startPump =>
      simp only [point] at kept
      exact absurd kept.2.1 notIdle
  | restore =>
      simp only [point] at kept
      rcases kept with both | ⟨restored, -⟩
      · exact absurd both (notHeld (by simp [point]))
      · exact Or.inr ⟨restored, rfl⟩
  | clearFlag =>
      simp only [point] at kept
      exact ⟨kept.1, fun isOpen => nomatch isOpen⟩
  | readPty | writeOut | closePty | testRaw =>
      simp only [point] at kept
      rcases kept with both | quiet
      · exact absurd both (notHeld (by simp [point]))
      · exact Or.inr quiet.close
  | cleanup | readCode | finish =>
      simp only [point] at kept
      exact kept.close

theorem terminalKept_pump (kept : TerminalKept termios s) (started : s.pump ≠ .idle)
    (pump : PumpPoint) : TerminalKept termios { s with pump } := by
  unfold TerminalKept at kept ⊢
  cases point : s.main with
  | install _ _ | getAttr | setRaw | setFlag | startPump =>
      simp only [point] at kept
      exact absurd kept.2.1 started
  | readPty | writeOut | closePty | testRaw | restore | clearFlag | cleanup | readCode | finish =>
      simpa only [point] using kept

theorem terminalKept_pumpStep (kept : TerminalKept termios s) {io : Transfer}
    (allowed : KeepsTerminal (.pump io) s) (stepped : s.pumpStep io = some next) :
    TerminalKept termios next ∧ next.ending = s.ending := by
  rcases ClientState.pumpStep_cases stepped with ⟨closing, rfl⟩ | ⟨started, -, pump, rfl⟩
  · exact ⟨terminalKept_close kept closing (allowed closing) _, rfl⟩
  · exact ⟨terminalKept_pump kept started _, rfl⟩

/-- `restore_stdin` is entered with the flag, or it has nothing to do. -/
theorem terminalKept_testRaw (kept : (s.stdin.isRaw = true ∧ Held termios s.stdin) ∨
    Quiet termios s.stdin) :
    TerminalKept termios { s with main := if s.stdin.isRaw then .restore else .cleanup } := by
  by_cases flagged : s.stdin.isRaw = true
  · simp only [TerminalKept, flagged, if_true]
    rcases kept with held | quiet
    · exact Or.inl ⟨trivial, held.2⟩
    · exact Or.inr ⟨quiet.restored, quiet.noRestore flagged⟩
  · simp only [TerminalKept, flagged]
    rcases kept with held | quiet
    · exact absurd held.1 flagged
    · exact quiet

/-- The main thread restores the terminal on its way, if it pumps the standard
output. -/
theorem terminalKept_mainStep (both : s.atty.stdin = true → s.atty.stdout = true)
    (kept : TerminalKept termios s) {io : Transfer} (stepped : s.mainStep io = some next) :
    TerminalKept termios next ∧ (next.ending = s.ending ∨ next.stdin.termios = termios) := by
  rw [TerminalKept] at kept
  cases ClientState.MainStep.of_mainStep stepped with
  | install sig rest point =>
      simp only [point] at kept
      refine ⟨?_, Or.inl rfl⟩
      have installed := kept.2.2.install
      cases rest with
      | nil => exact ⟨kept.1, kept.2.1, installed⟩
      | cons _ _ => exact ⟨kept.1, kept.2.1, installed⟩
  | getAttr point isOpen =>
      simp only [point] at kept
      rcases kept with ⟨stdin, idle, early⟩
      exact ⟨⟨stdin, idle, ⟨early.restored, early.unflagged, early.handled⟩,
        fun _ => early.restored⟩, Or.inl rfl⟩
  | setRaw point isOpen =>
      simp only [point] at kept
      rcases kept with ⟨stdin, idle, early, saved⟩
      exact ⟨⟨stdin, idle, early.unflagged, early.held (saved isOpen) isOpen⟩, Or.inl rfl⟩
  | skipRaw point closed =>
      rcases point with point | point
      · simp only [point] at kept
        exact ⟨⟨kept.1, kept.2.1, Or.inr kept.2.2.quiet⟩, Or.inl rfl⟩
      · simp only [point] at kept
        exact ⟨⟨kept.1, kept.2.1, Or.inr kept.2.2.1.quiet⟩, Or.inl rfl⟩
  | setFlag point =>
      simp only [point] at kept
      rcases kept with ⟨stdin, idle, -, held⟩
      exact ⟨⟨stdin, idle, Or.inl ⟨rfl, held.raw, held.saved, held.isOpen, held.handled⟩⟩,
        Or.inl rfl⟩
  | startPump point =>
      simp only [point] at kept
      rw [afterStdin, if_pos (both kept.1)]
      exact ⟨kept.2.2, Or.inl rfl⟩
  | readPty _ point _ | endPty point _ _ _ | closePty point | cleanup point | readCode point =>
      simp only [point] at kept
      exact ⟨kept, Or.inl rfl⟩
  | writeOut count point moved =>
      simp only [point] at kept
      refine ⟨?_, Or.inl rfl⟩
      by_cases emptied : s.buffer.drop count = []
      · simpa only [TerminalKept, emptied, if_true] using kept
      · simpa only [TerminalKept, emptied, if_false] using kept
  | failPty point failed =>
      rcases point with point | point
      · simp only [point] at kept
        exact ⟨kept, Or.inl rfl⟩
      · simp only [point] at kept
        exact ⟨kept, Or.inl rfl⟩
  | testRaw point =>
      simp only [point] at kept
      exact ⟨terminalKept_testRaw kept, Or.inl rfl⟩
  | restore point isOpen =>
      simp only [point] at kept
      rcases kept with ⟨-, held⟩ | ⟨-, closed⟩
      · exact ⟨⟨held.saved, fun _ => held.saved⟩, Or.inl rfl⟩
      · cases closed.symm.trans isOpen
  | skipRestore point closed =>
      simp only [point] at kept
      rcases kept with ⟨-, held⟩ | ⟨restored, -⟩
      · cases closed.symm.trans held.isOpen
      · exact ⟨⟨restored, fun _ => closed⟩, Or.inl rfl⟩
  | clearFlag point =>
      simp only [point] at kept
      refine ⟨⟨kept.1, fun flagged => ?_⟩, Or.inl rfl⟩
      cases flagged
  | giveUp point | finish point =>
      simp only [point] at kept
      refine ⟨?_, Or.inr kept.restored⟩
      simpa only [TerminalKept, point] using kept

end

/-! ## Runs -/

structure TerminalInv (atty : Atty) (termios : Termios) (s : ClientState) : Prop where
  sameAtty : s.atty = atty
  kept : TerminalKept termios s
  ended : s.ending.isSome = true → s.stdin.termios = termios

/-- The terminal is not as it was, and nobody can restore it any more. -/
structure Lost (termios : Termios) (s : ClientState) : Prop where
  changed : s.stdin.termios ≠ termios
  closed : s.stdin.isOpen = false

section

variable {atty : Atty} {termios : Termios} {s next : ClientState} {event : ClientEvent}

theorem terminalInv_start (onPty : OutputStream → Bool) :
    TerminalInv atty termios (ClientState.start atty onPty termios) := by
  refine ⟨rfl, ?_, fun ended => nomatch ended⟩
  have quiet : Quiet termios (StdinState.start termios) := ⟨rfl, fun flagged => nomatch flagged⟩
  rcases atty with ⟨stdin, stdout, stderr⟩
  cases stdin with
  | true =>
      refine ⟨rfl, rfl, rfl, rfl, fun _ sig notPending => ?_⟩
      cases sig <;> simp at notPending
  | false =>
      cases stdout with
      | true => exact Or.inr quiet
      | false => exact quiet

theorem terminalInv_step (both : atty.stdin = true → atty.stdout = true)
    (inv : TerminalInv atty termios s) (allowed : KeepsTerminal event s)
    (stepped : clientStep event s = some next) : TerminalInv atty termios next := by
  rcases clientStep_eq_some stepped with ⟨running, turned⟩
  have notEnded : ¬s.ending.isSome = true := by simp [running]
  have sameAtty := (clientStep_frame stepped).atty.trans inv.sameAtty
  cases event with
  | main io =>
      rw [← inv.sameAtty] at both
      rcases terminalKept_mainStep both inv.kept turned with ⟨kept, ending⟩
      refine ⟨sameAtty, kept, fun ended => ?_⟩
      rcases ending with sameEnding | restored
      · rw [sameEnding] at ended
        exact absurd ended notEnded
      · exact restored
  | pump io =>
      rcases terminalKept_pumpStep inv.kept allowed turned with ⟨kept, sameEnding⟩
      refine ⟨sameAtty, kept, fun ended => ?_⟩
      rw [sameEnding] at ended
      exact absurd ended notEnded
  | signal sig =>
      simp only [ClientState.turn] at turned
      split at turned
      · cases turned
        exact ⟨sameAtty, terminalKept_sighandler inv.kept allowed,
          fun ended => absurd ended notEnded⟩
      · rename_i unhandled
        cases turned
        exact ⟨sameAtty, inv.kept,
          fun _ => restored_of_unhandled inv.kept allowed (by simpa using unhandled)⟩
  | command stream bytes arriving =>
      rcases ClientState.commandWrites_cases turned with ⟨-, -, -, rfl⟩ | ⟨-, rfl⟩
      · exact ⟨sameAtty, inv.kept, fun ended => absurd ended notEnded⟩
      · exact inv
  | echoed _ | hangUp | sendCode =>
      cases turned
      exact ⟨sameAtty, inv.kept, fun ended => absurd ended notEnded⟩

theorem stdin_of_closed (closed : s.stdin.isOpen = false)
    (stepped : clientStep event s = some next) :
    next.stdin.termios = s.stdin.termios ∧ next.stdin.isOpen = false := by
  rcases clientStep_eq_some stepped with ⟨-, turned⟩
  cases event with
  | main io =>
      simp only [ClientState.turn, ClientState.mainStep] at turned
      cases point : s.main with
      | readPty =>
          simp only [point] at turned
          rcases ClientState.readPty_cases turned with
            ⟨count, -, -, rfl⟩ | ⟨-, -, -, rfl⟩ | ⟨-, rfl⟩
          all_goals exact ⟨rfl, closed⟩
      | writeOut =>
          simp only [point] at turned
          rcases ClientState.writeOut_cases turned with ⟨count, -, rfl⟩ | ⟨-, rfl⟩
          all_goals exact ⟨rfl, closed⟩
      | readCode =>
          simp only [point] at turned
          rcases ClientState.readCode_cases turned with rfl | rfl
          all_goals exact ⟨rfl, closed⟩
      | getAttr | setRaw | restore =>
          simp only [point] at turned
          rw [if_neg (by simp [closed])] at turned
          cases turned
          exact ⟨rfl, closed⟩
      | install _ _ | setFlag | startPump | closePty | testRaw | clearFlag | cleanup | finish =>
          simp only [point] at turned
          cases turned
          exact ⟨rfl, closed⟩
  | pump io =>
      rcases ClientState.pumpStep_cases turned with ⟨-, rfl⟩ | ⟨-, -, pump, rfl⟩
      · exact ⟨rfl, rfl⟩
      · exact ⟨rfl, closed⟩
  | signal sig =>
      simp only [ClientState.turn] at turned
      split at turned
      · cases turned
        exact ⟨termios_sighandler_of_closed closed, rfl⟩
      · cases turned
        exact ⟨rfl, closed⟩
  | command stream bytes arriving =>
      rcases ClientState.commandWrites_cases turned with ⟨-, -, -, rfl⟩ | ⟨-, rfl⟩
      all_goals exact ⟨rfl, closed⟩
  | echoed _ | hangUp | sendCode =>
      cases turned
      exact ⟨rfl, closed⟩

theorem lost_step (lost : Lost termios s) (stepped : clientStep event s = some next) :
    Lost termios next := by
  rcases stdin_of_closed lost.closed stepped with ⟨sameTermios, closed⟩
  exact ⟨sameTermios ▸ lost.changed, closed⟩

theorem held_of_pending (kept : TerminalKept termios s) (pending : RestorePending s) :
    Held termios s.stdin := by
  rcases pending with ⟨flagged, isOpen, elsewhere⟩
  have notQuiet : ¬Quiet termios s.stdin := by
    intro quiet
    rw [quiet.noRestore flagged] at isOpen
    cases isOpen
  unfold TerminalKept at kept
  cases point : s.main with
  | install _ _ | getAttr =>
      simp only [point] at kept
      exact absurd kept.2.2.quiet notQuiet
  | setRaw =>
      simp only [point] at kept
      exact absurd kept.2.2.1.quiet notQuiet
  | setFlag =>
      simp only [point] at kept
      exact kept.2.2.2
  | startPump =>
      simp only [point, notQuiet, or_false] at kept
      exact kept.2.2.2
  | readPty | writeOut | closePty | testRaw =>
      simp only [point, notQuiet, or_false] at kept
      exact kept.2
  | restore =>
      simp only [point, isOpen, Bool.true_eq_false, and_false, or_false] at kept
      exact kept.2
  | clearFlag => exact absurd point elsewhere
  | cleanup | readCode | finish =>
      simp only [point] at kept
      exact absurd kept notQuiet

theorem lost_of_violation (cooked : makeRaw termios ≠ termios) (inv : TerminalInv atty termios s)
    (violated : ¬KeepsTerminal event s) (stepped : clientStep event s = some next) :
    Lost termios next := by
  rcases clientStep_eq_some stepped with ⟨-, turned⟩
  have kept := inv.kept
  cases event with
  | signal sig =>
      have window : s.main = .setFlag := not_not.mp violated
      simp only [TerminalKept, window] at kept
      rcases kept with ⟨-, -, unflagged, held⟩
      simp only [ClientState.turn, held.handled sig, if_true, Option.some.injEq] at turned
      subst turned
      refine ⟨?_, rfl⟩
      rw [termios_sighandler_of_unflagged unflagged, held.raw]
      exact cooked
  | pump io =>
      rcases Classical.not_imp.mp violated with ⟨closing, notNot⟩
      have held := held_of_pending kept (not_not.mp notNot)
      rcases ClientState.pumpStep_cases turned with ⟨-, rfl⟩ | ⟨-, notClosing, -⟩
      · exact ⟨fun same => cooked (held.raw.symm.trans same), rfl⟩
      · exact absurd closing notClosing
  | main _ | command _ _ _ | echoed _ | hangUp | sendCode => exact absurd trivial violated

end

def unpumpedRun : List ClientEvent :=
  rawSetup ++ [ClientEvent.sendCode, .main (.moved 4), .main .ended]

theorem unpumpedRun_stays_raw (stderr : Bool) (onPty : OutputStream → Bool) (termios : Termios) :
    ∃ last, runClient unpumpedRun
        (ClientState.start { stdin := true, stdout := false, stderr } onPty termios) = some last ∧
      last.ending = some .returned ∧ last.stdin.termios = makeRaw termios :=
  ⟨_, rfl, rfl, rfl⟩

/-- The client gives the terminal back in exactly the runs whose steps all keep
it, if and only if the standard output is a terminal whenever the standard input
is one. -/
theorem terminal_given_back_iff (atty : Atty) (onPty : OutputStream → Bool) (termios : Termios)
    (cooked : makeRaw termios ≠ termios) :
    (∀ events last, runClient events (ClientState.start atty onPty termios) = some last →
      last.ending.isSome = true →
      (last.stdin.termios = termios ↔
        Along clientStep KeepsTerminal events (ClientState.start atty onPty termios))) ↔
    (atty.stdin = true → atty.stdout = true) := by
  constructor
  · intro givesBack stdin
    by_contra notStdout
    rcases atty with ⟨stdin', stdout, stderr⟩
    cases stdin
    cases stdout with
    | true => exact notStdout rfl
    | false =>
        rcases unpumpedRun_stays_raw stderr onPty termios with ⟨last, ran, ended, raw⟩
        have keeps : ∀ event, event ∈ unpumpedRun → ∀ s, KeepsTerminal event s := by
          intro event member s
          simp only [unpumpedRun, rawSetup, List.mem_append, List.mem_replicate, List.mem_cons,
            List.not_mem_nil, or_false] at member
          rcases member with ⟨-, rfl⟩ | rfl | rfl | rfl
          all_goals trivial
        have restored := (givesBack unpumpedRun last ran (by simp [ended])).mpr
          (along_of_forall keeps _)
        exact cooked (raw.symm.trans restored)
  · intro both events last ran ended
    have outcome := runSteps_dichotomy
      (fun _ _ _ inv allowed stepped => terminalInv_step both inv allowed stepped)
      (fun _ _ _ inv violated stepped => lost_of_violation cooked inv violated stepped)
      (fun _ _ _ lost stepped => lost_step lost stepped)
      events (terminalInv_start onPty) ran
    constructor
    · intro restored
      by_contra violated
      exact (outcome.2 violated).changed restored
    · intro along
      exact (outcome.1 along).ended ended

def closingRun : List ClientEvent :=
  [ClientEvent.hangUp, .sendCode] ++ List.replicate 6 (ClientEvent.main .ended) ++
    [ClientEvent.main (.moved 4), .main .ended]

/-- On three terminals, a command without output. -/
theorem terminal_given_back_on_terminals :
    ∃ last, runClient (rawSetup ++ closingRun)
        (ClientState.start { stdin := true, stdout := true, stderr := true } (fun _ => true)
          loginTermios) = some last ∧
      last.ending = some .returned ∧ last.stdin.termios = loginTermios := by
  have keeps : ∀ event, event ∈ rawSetup ++ closingRun → ∀ s, KeepsTerminal event s := by
    intro event member s
    simp only [rawSetup, closingRun, List.mem_append, List.mem_replicate, List.mem_cons,
      List.not_mem_nil, or_false] at member
    rcases member with ⟨-, rfl⟩ | ((rfl | rfl) | ⟨-, rfl⟩) | rfl | rfl
    all_goals trivial
  refine ⟨_, rfl, rfl, ?_⟩
  exact ((terminal_given_back_iff { stdin := true, stdout := true, stderr := true }
    (fun _ => true) loginTermios (by decide)).mpr (fun _ => rfl) (rawSetup ++ closingRun) _ rfl
    rfl).mpr (along_of_forall keeps _)

/-- The terminal is left raw when the standard output is redirected; on three
terminals, by an interrupt right after the terminal was made raw, and by a failed
write of the thread, which closes the standard input. -/
theorem terminal_left_raw :
    (∃ last, runClient unpumpedRun
        (ClientState.start { stdin := true, stdout := false, stderr := true } (fun _ => false)
          loginTermios) = some last ∧
      last.ending = some .returned ∧ last.stdin.termios ≠ loginTermios) ∧
    (∃ last, runClient (rawSetup.take 8 ++ [ClientEvent.signal .int] ++ rawSetup.take 2 ++
          [ClientEvent.hangUp, .sendCode] ++ List.replicate 5 (ClientEvent.main .ended) ++
          [ClientEvent.main (.moved 4), .main .ended])
        (ClientState.start { stdin := true, stdout := true, stderr := true } (fun _ => true)
          loginTermios) = some last ∧
      last.ending = some .returned ∧ last.stdin.termios ≠ loginTermios) ∧
    ∃ last, runClient (rawSetup ++ [ClientEvent.pump (.moved 1), .pump .failed, .pump .ended,
          .hangUp, .sendCode] ++ List.replicate 5 (ClientEvent.main .ended) ++
          [ClientEvent.main (.moved 4), .main .ended])
        (ClientState.start { stdin := true, stdout := true, stderr := true } (fun _ => true)
          loginTermios) = some last ∧
      last.ending = some .returned ∧ last.stdin.termios ≠ loginTermios := by
  refine ⟨⟨_, rfl, rfl, ?_⟩, ⟨_, rfl, rfl, ?_⟩, ⟨_, rfl, rfl, ?_⟩⟩
  all_goals decide

end SuBinary.Su
