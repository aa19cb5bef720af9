import Pintos.Lib.Machine

/-!
# Pintos.Devices.Ide

Commands and interrupts on an ATA channel (`devices/ide.c`).

The lock of the channel admits one command at a time.  `issue_pio_command` sets
`expecting_interrupt`, and nothing resets it: after the first command the handler counts every
interrupt, also one that no command has asked for (`spurious_interrupt_counted`).  The next
`sema_down` then returns before its own command is complete.  With one interrupt for each
command, after it has been issued, the counts agree (`completion_matched`).
-/

namespace Pintos.Ide

/-! ## the channel -/

/-- The steps of `ide_read` and `ide_write` between `lock_acquire` and `lock_release`. -/
inductive Step
  | selectSector
  | issuePioCommand
  | semaDown
  | waitWhileBusy
  | inputSector
  | outputSector
  deriving DecidableEq

inductive Command
  | read
  | write

def Command.steps : Command → List Step
  | .read => [.selectSector, .issuePioCommand, .semaDown, .waitWhileBusy, .inputSector]
  | .write => [.selectSector, .issuePioCommand, .waitWhileBusy, .outputSector, .semaDown]

/-- `struct channel`, with the steps that the holder of the lock has before it.  `arrived` counts
the interrupts since the last command was issued. -/
structure Channel (τ : Type*) where
  holder : Option τ
  expectingInterrupt : Bool
  completionWait : Nat
  todo : List Step
  arrived : Nat

namespace Channel

variable {τ : Type*} {s s' : Channel τ}

/-- `interrupt_handler`, for the line of the channel. -/
def interruptHandler (s : Channel τ) : Channel τ :=
  if s.expectingInterrupt then
    { s with completionWait := s.completionWait + 1, arrived := s.arrived + 1 }
  else s

/-- The holder makes a step; `none` when it has to wait, and when it panics because the device
stays busy. -/
def run (s : Channel τ) (idle : Bool) (rest : List Step) : Step → Option (Channel τ)
  | .issuePioCommand => some { s with todo := rest, expectingInterrupt := true, arrived := 0 }
  | .semaDown =>
    if 0 < s.completionWait then
      some { s with todo := rest, completionWait := s.completionWait - 1 }
    else none
  | .waitWhileBusy => if idle then some { s with todo := rest } else none
  | .selectSector | .inputSector | .outputSector => some { s with todo := rest }

/-- A thread acquires the lock for a command, the holder makes a step or releases the lock, or an
interrupt arrives. -/
inductive Action (τ : Type*)
  | acquire (t : τ) (c : Command)
  | run (idle : Bool)
  | interrupt

def step (s : Channel τ) : Action τ → Option (Channel τ)
  | .acquire t c =>
    if s.holder.isNone then some { s with holder := some t, todo := c.steps } else none
  | .run idle =>
    match s.todo with
    | step :: rest => s.run idle rest step
    | [] => some { s with holder := none }
  | .interrupt => some s.interruptHandler

/-- A channel on which no command is running; the flag is set if `ide_init` has identified a
disk. -/
def machine (τ : Type*) : Machine (Channel τ) (Action τ) where
  init s := s.holder = none ∧ s.completionWait = 0 ∧ s.todo = []
  step := step

/-! ## one interrupt for each command -/

/-- A command has been issued and its `sema_down` is to come. -/
def Outstanding (s : Channel τ) : Prop := .semaDown ∈ s.todo ∧ .issuePioCommand ∉ s.todo

instance (s : Channel τ) : Decidable s.Outstanding := inferInstanceAs (Decidable (_ ∧ _))

/-- An interrupt arrives before the first command, or as the first since a command that is
outstanding has been issued. -/
def Due (s : Channel τ) : Action τ → Prop
  | .interrupt => s.expectingInterrupt = false ∨ s.Outstanding ∧ s.arrived = 0
  | _ => True

/-- A command is issued once, and then waited for once. -/
def Ordered : List Step → Prop
  | [] => True
  | .issuePioCommand :: rest => .semaDown ∈ rest ∧ .issuePioCommand ∉ rest ∧ Ordered rest
  | .semaDown :: rest => .semaDown ∉ rest ∧ .issuePioCommand ∉ rest ∧ Ordered rest
  | _ :: rest => Ordered rest

theorem ordered_steps (c : Command) : Ordered c.steps := by
  cases c <;> simp [Command.steps, Ordered]

/-- The semaphore counts the interrupts of the outstanding command. -/
structure Inv (s : Channel τ) : Prop where
  ordered : Ordered s.todo
  free : s.holder = none → s.todo = []
  wait : s.completionWait = if s.Outstanding then s.arrived else 0
  le : s.Outstanding → s.arrived ≤ 1

/-- A step that is neither the command nor its `sema_down`. -/
theorem Inv.skip {st : Step} {rest : List Step} (h : s.Inv) (htodo : s.todo = st :: rest)
    (hissue : st ≠ .issuePioCommand) (hdown : st ≠ .semaDown) (hs' : s' = { s with todo := rest }) :
    s'.Inv := by
  have hsame : s'.Outstanding ↔ s.Outstanding := by
    simp [hs', Outstanding, htodo, hissue.symm, hdown.symm]
  have hordered := h.ordered
  rw [htodo] at hordered
  have hfree : s.holder ≠ none := fun hnone => by simp [h.free hnone] at htodo
  subst hs'
  refine ⟨?_, fun hnone => absurd hnone hfree, ?_, fun hout => h.le (hsame.mp hout)⟩
  · cases st <;> first | exact hordered | contradiction
  · simpa only [hsame] using h.wait

/-- **A step that is due keeps the counts.** -/
theorem Inv.step {a : Action τ} (h : s.Inv) (hdue : s.Due a) (hs : s.step a = some s') :
    s'.Inv := by
  cases a with
  | acquire t c =>
    obtain ⟨hnone, rfl⟩ := of_guard hs
    have hwait := h.wait
    rw [if_neg (by simp [Outstanding, h.free (Option.isNone_iff_eq_none.mp hnone)])] at hwait
    have hout : ¬ Outstanding { s with holder := some t, todo := c.steps } := by
      cases c <;> simp [Outstanding, Command.steps]
    exact ⟨ordered_steps c, nofun, by rw [if_neg hout]; exact hwait, fun h => absurd h hout⟩
  | run idle =>
    simp only [Channel.step] at hs
    split at hs
    next st rest htodo =>
      have hordered := h.ordered
      have hwait := h.wait
      rw [htodo] at hordered
      have hfree : s.holder ≠ none := fun hnone => by simp [h.free hnone] at htodo
      cases st with
      | issuePioCommand =>
        cases hs
        obtain ⟨hdown, hissue, hordered⟩ := hordered
        rw [if_neg (by simp [Outstanding, htodo])] at hwait
        exact ⟨hordered, fun hnone => absurd hnone hfree, by simp [Outstanding, hdown, hissue, hwait],
          fun _ => Nat.zero_le 1⟩
      | semaDown =>
        obtain ⟨hpos, rfl⟩ := of_guard hs
        obtain ⟨hdown, hissue, hordered⟩ := hordered
        have hout : s.Outstanding := by simp [Outstanding, htodo, hissue]
        have hle := h.le hout
        rw [if_pos hout] at hwait
        refine ⟨hordered, fun hnone => absurd hnone hfree, ?_, fun hout => absurd hout.1 hdown⟩
        rw [if_neg fun hout => hdown hout.1]
        dsimp only
        omega
      | waitWhileBusy =>
        obtain ⟨-, heq⟩ := of_guard hs
        exact h.skip htodo nofun nofun heq.symm
      | _ => exact h.skip htodo nofun nofun (Option.some.inj hs).symm
    next htodo =>
      cases hs
      exact ⟨h.ordered, fun _ => htodo, h.wait, h.le⟩
  | interrupt =>
    cases hs
    unfold interruptHandler
    split
    next hexpect =>
      rcases hdue with hnot | ⟨hout, hzero⟩
      · rw [hexpect] at hnot
        contradiction
      · have hwait := h.wait
        rw [if_pos hout] at hwait
        refine ⟨h.ordered, h.free, ?_, fun _ => Nat.le_of_eq (congrArg (· + 1) hzero)⟩
        change s.completionWait + 1 = if s.Outstanding then s.arrived + 1 else 0
        rw [if_pos hout, hwait]
    next => exact h

theorem inv_of_reachIn (h : (machine τ).ReachIn Due s) : s.Inv := by
  refine h.invariant (fun s hinit => ?_) fun s a s' hinv hdue hs => hinv.step hdue hs
  obtain ⟨-, hwait, htodo⟩ := hinit
  have hout : ¬ s.Outstanding := by simp [Outstanding, htodo]
  exact ⟨by rw [htodo]; trivial, fun _ => htodo, by rw [if_neg hout]; exact hwait,
    fun h => absurd h hout⟩

/-- **Completions are matched**: with one interrupt for each command, the semaphore is at 0
while the lock is free, and a `sema_down` that returns has had an interrupt since its command
was issued. -/
theorem completion_matched (h : (machine τ).ReachIn Due s) :
    (s.holder = none → s.completionWait = 0) ∧
      ∀ rest, s.todo = .semaDown :: rest → 0 < s.completionWait → 0 < s.arrived := by
  have hinv := inv_of_reachIn h
  refine ⟨fun hnone => ?_, fun rest htodo hpos => ?_⟩
  · rw [hinv.wait, if_neg (by simp [Outstanding, hinv.free hnone])]
  · have hwait := hinv.wait
    split at hwait <;> omega

instance (s : Channel τ) (a : Action τ) : Decidable (s.Due a) := by
  cases a <;> unfold Due <;> infer_instance

/-- A channel after `ide_init`. -/
def start : Channel Unit := ⟨none, true, 0, [], 0⟩

theorem init_start : (machine Unit).init start := ⟨rfl, rfl, rfl⟩

/-- A read whose interrupt arrives while it waits. -/
def readOnce : List (Action Unit) :=
  [.acquire () .read, .run true, .run true, .interrupt, .run true, .run true, .run true, .run true]

theorem completion_matched_read : ∃ s, (machine Unit).ReachIn Due s ∧ s.expectingInterrupt = true ∧
    s.holder = none ∧ s.completionWait = 0 := by
  obtain ⟨s, -, hreach, hp⟩ := Machine.exists_reachIn_of_runIn (C := Due) init_start readOnce
    (fun s => s.expectingInterrupt ∧ s.holder = none) (by decide +kernel)
  exact ⟨s, hreach, hp.1, hp.2, (completion_matched hreach).1 hp.2⟩

/-- An interrupt after the read has ended is counted. -/
theorem spurious_interrupt_counted :
    ∃ s, (machine Unit).Reach s ∧ s.holder = none ∧ s.completionWait = 1 := by
  obtain ⟨s, -, hreach, hp⟩ := Machine.exists_reach_of_runFrom init_start
    (readOnce ++ [.interrupt]) (fun s => s.holder = none ∧ s.completionWait = 1) (by decide +kernel)
  exact ⟨s, hreach, hp⟩

end Channel

end Pintos.Ide
