import Okm6ullOta.LabelledRuns
import Mathlib.Data.List.DropRight

/-!
# The rollback command of ota-app-rollback.service

The first `ExecStart` of the unit over the files it touches. An invocation is
not stopped, or stopped by a power cut or a failing step at a point of its
chain; the effects before that point persist in program order. Every state
between two effects is what some stopped invocation leaves, so invariants of
runs of invocations hold at every program point.
-/
namespace Okm6ullOta.AppRollback
open LabelledRuns

abbrev Bytes := List UInt8

structure Program where
  content : Bytes
  mode : ℕ
  deriving DecidableEq, Repr

/-- `test -x`, as root: some execute bit is set. -/
def Program.executable (p : Program) : Bool := p.mode &&& 0o111 != 0

/-- `/usr/bin/mqtt_led_app`, its backup under `appB`, and `/var/lib/ota`. -/
structure Files where
  app : Option Program
  backup : Option Program
  upgrade_available : Option Bytes
  app_try_count : Option Bytes
  pending_app : Option Bytes
  rollback_app : Option Bytes
  deriving DecidableEq, Repr

/-- `$(cat f)`: the newlines at the end are dropped. -/
def captured (b : Bytes) : Bytes := b.rdropWhile (· == 10)

def one : Bytes := [49]

def zero : Bytes := [48]

/-- What `echo 0` writes. -/
def zeroLine : Bytes := [48, 10]

def Holds (f : Option Bytes) (v : Bytes) : Prop := f.map captured = some v

instance (f : Option Bytes) (v : Bytes) : Decidable (Holds f v) :=
  inferInstanceAs (Decidable (_ = _))

namespace Files

/-- `cp` with the first `n` bytes written: an old file keeps its mode, a new one
has the mode of the source under the umask 022. -/
def copying (f : Files) (b : Program) (n : ℕ) : Files :=
  { f with app := some ⟨b.content.take n, (f.app.map (·.mode)).getD (b.mode &&& 0o755)⟩ }

def copied (f : Files) (b : Program) : Files := f.copying b b.content.length

def chmod (f : Files) : Files := { f with app := f.app.map fun a => { a with mode := 0o755 } }

def restored (f : Files) (b : Program) : Files := (f.copied b).chmod

def flagged (f : Files) (b : Program) : Files :=
  { f.restored b with upgrade_available := some zeroLine }

def uncounted (f : Files) (b : Program) : Files :=
  { f.flagged b with app_try_count := some zeroLine }

/-- `rm -f` with each of its two files removed or not. -/
def removing (f : Files) (b : Program) (pending rollback : Bool) : Files :=
  { f.uncounted b with
    pending_app := if pending then none else f.pending_app
    rollback_app := if rollback then none else f.rollback_app }

end Files

/-- Where an invocation stops: before the chain, within `cp`, after `chmod`,
within and after the two `echo 0 >`, which truncate before they write, and
within or after `rm -f`, which goes on after a file it cannot remove. -/
inductive Stop where
  | idle
  | copying (n : ℕ)
  | restored
  | flagTruncated
  | flagCleared
  | countTruncated
  | countCleared
  | removing (pending rollback : Bool)
  deriving DecidableEq, Repr

def Stop.leaves (b : Program) (f : Files) : Stop → Files
  | idle => f
  | copying n => f.copying b n
  | restored => f.restored b
  | flagTruncated => { f.restored b with upgrade_available := some [] }
  | flagCleared => f.flagged b
  | countTruncated => { f.flagged b with app_try_count := some [] }
  | countCleared => f.uncounted b
  | removing p r => f.removing b p r

/-- An invocation, stopped somewhere or not at all. -/
abbrev Attempt := Option Stop

/-- The files an invocation leaves, and whether it exits with success. A stopped
one never does. -/
def invoke (a : Attempt) (f : Files) : Files × Bool :=
  let upgrade := (f.upgrade_available.map captured).getD zero
  if upgrade ≠ one then (f, a.isNone)
  else
    match f.backup with
    | none => (f, false)
    | some b =>
      if ¬ b.executable then (f, false)
      else
        match a with
        | none => (f.removing b true true, true)
        | some p => (p.leaves b f, false)

def Step (f : Files) (a : Attempt) (f' : Files) : Prop := (invoke a f).1 = f'

/-- The chain is reached, and copies from `b`. -/
structure Ready (b : Program) (f : Files) : Prop where
  flag : Holds f.upgrade_available one
  backup : f.backup = some b
  executable : b.executable

theorem invoke_skips {f : Files} (h : ¬ Holds f.upgrade_available one) (a : Attempt) :
    invoke a f = (f, a.isNone) := by
  have hu : (f.upgrade_available.map captured).getD zero ≠ one := by
    intro hu
    unfold Holds at h
    cases hf : f.upgrade_available.map captured with
    | none => simp [hf, zero, one] at hu
    | some v => simp_all
  simp only [invoke, if_pos hu]

theorem invoke_ready {b : Program} {f : Files} (h : Ready b f) (a : Attempt) :
    invoke a f = match a with
      | none => (f.removing b true true, true)
      | some p => (p.leaves b f, false) := by
  have hu : (f.upgrade_available.map captured).getD zero = one := by
    rw [h.flag]
    rfl
  simp only [invoke, hu, ne_eq, not_true_eq_false, if_false, h.backup, h.executable]

/-- The chain of the invocation gets as far as the flag. -/
def Stop.clears : Stop → Bool
  | idle | copying _ | restored => false
  | _ => true

/-- What a stop before the flag leaves alone. -/
structure Frame (f g : Files) : Prop where
  upgrade : g.upgrade_available = f.upgrade_available
  backup : g.backup = f.backup
  count : g.app_try_count = f.app_try_count
  pending : g.pending_app = f.pending_app
  rollback : g.rollback_app = f.rollback_app

theorem Frame.refl (f : Files) : Frame f f := ⟨rfl, rfl, rfl, rfl, rfl⟩

theorem Frame.trans {f g h : Files} (hf : Frame f g) (hg : Frame g h) : Frame f h :=
  ⟨hg.upgrade.trans hf.upgrade, hg.backup.trans hf.backup, hg.count.trans hf.count,
    hg.pending.trans hf.pending, hg.rollback.trans hf.rollback⟩

theorem leaves_frame {p : Stop} (h : p.clears = false) (b : Program) (f : Files) :
    Frame f (p.leaves b f) := by
  cases p <;> first | exact ⟨rfl, rfl, rfl, rfl, rfl⟩ | cases h

theorem leaves_backup (p : Stop) (b : Program) (f : Files) : (p.leaves b f).backup = f.backup := by
  cases p <;> rfl

theorem restored_app (f : Files) (b : Program) :
    (f.restored b).app = some ⟨b.content, 0o755⟩ := by
  simp [Files.restored, Files.copied, Files.copying, Files.chmod]

/-- Once the flag is touched, the copy is complete and executable. -/
theorem leaves_cleared {p : Stop} (h : p.clears) (b : Program) (f : Files) :
    ¬ Holds (p.leaves b f).upgrade_available one ∧
      (p.leaves b f).app = some ⟨b.content, 0o755⟩ := by
  have h₀ : ¬ Holds (some []) one := by decide
  have h₁ : ¬ Holds (some zeroLine) one := by decide
  have ha := restored_app f b
  cases p with
  | idle => cases h
  | copying n => cases h
  | restored => cases h
  | flagTruncated => exact ⟨h₀, ha⟩
  | _ => exact ⟨h₁, ha⟩

/-- The files after a rollback. -/
structure Recovered (b : Program) (f : Files) : Prop where
  app : ∃ a, f.app = some a ∧ a.content = b.content ∧ a.executable
  upgrade : Holds f.upgrade_available zero
  count : Holds f.app_try_count zero
  pending : f.pending_app = none
  rollback : f.rollback_app = none

def clears (a : Attempt) : Bool := a.elim true Stop.clears

/-- A stop past the flag which leaves nothing to do in the files `f`. -/
def Stop.Harmless (f : Files) : Stop → Prop
  | flagCleared => Holds f.app_try_count zero ∧ f.pending_app = none ∧ f.rollback_app = none
  | countCleared => f.pending_app = none ∧ f.rollback_app = none
  | removing p r => (p ∨ f.pending_app = none) ∧ (r ∨ f.rollback_app = none)
  | _ => False

def Completes (f : Files) : Attempt → Prop
  | none => True
  | some p => p.Harmless f

/-- The first attempt which gets as far as the flag. -/
def watch (g : Option Attempt) (_ : Files) (a : Attempt) : Option Attempt :=
  match g with
  | some c => some c
  | none => if clears a then some a else none

theorem executable_0755 (content : Bytes) : (Program.mk content 0o755).executable := by
  change (0o755 &&& 0o111 != 0) = true
  decide

theorem recovered_iff_rest {b : Program} {f : Files} (h : f.app = some ⟨b.content, 0o755⟩) :
    Recovered b f ↔ Holds f.upgrade_available zero ∧ Holds f.app_try_count zero ∧
      f.pending_app = none ∧ f.rollback_app = none := by
  constructor
  · intro r
    exact ⟨r.upgrade, r.count, r.pending, r.rollback⟩
  · rintro ⟨hu, hc, hp, hr⟩
    exact ⟨⟨_, h, rfl, executable_0755 _⟩, hu, hc, hp, hr⟩

/-- What a stop past the flag leaves is a completed rollback only if it is harmless. -/
theorem leaves_recovered {p : Stop} (h : p.clears) (b : Program) (f : Files) :
    Recovered b (p.leaves b f) ↔ p.Harmless f := by
  have h₀ : ¬ Holds (some []) zero := by decide
  have h₁ : Holds (some zeroLine) zero := by decide
  rw [recovered_iff_rest (leaves_cleared h b f).2]
  cases p with
  | idle => cases h
  | copying n => cases h
  | restored => cases h
  | flagTruncated => simp [Stop.leaves, Stop.Harmless, h₀]
  | flagCleared =>
    change Holds (some zeroLine) zero ∧ Holds f.app_try_count zero ∧ f.pending_app = none ∧
      f.rollback_app = none ↔ _
    simp only [Stop.Harmless, h₁, true_and]
  | countTruncated => simp [Stop.leaves, Stop.Harmless, h₀]
  | countCleared =>
    change Holds (some zeroLine) zero ∧ Holds (some zeroLine) zero ∧ f.pending_app = none ∧
      f.rollback_app = none ↔ _
    simp only [Stop.Harmless, h₁, true_and]
  | removing q r =>
    have hu : (f.removing b q r).upgrade_available = some zeroLine := rfl
    have hc : (f.removing b q r).app_try_count = some zeroLine := rfl
    have hq : (f.removing b q r).pending_app = if q then none else f.pending_app := rfl
    have hr : (f.removing b q r).rollback_app = if r then none else f.rollback_app := rfl
    simp only [Stop.leaves, Stop.Harmless, hu, hc, hq, hr, h₁, true_and]
    cases q <;> cases r <;> simp

/-- An invocation which is not stopped leaves what a stop at its very end does. -/
theorem invoke_none {b : Program} {f : Files} (h : Ready b f) :
    invoke none f = ((Stop.removing true true).leaves b f, true) := invoke_ready h none

theorem invoke_none_recovered {b : Program} {f : Files} (h : Ready b f) :
    Recovered b (invoke none f).1 := by
  rw [invoke_none h, leaves_recovered rfl]
  exact ⟨.inl rfl, .inl rfl⟩

theorem Stop.harmless_frame {f g : Files} (h : Frame f g) (p : Stop) :
    p.Harmless g ↔ p.Harmless f := by
  cases p <;> simp only [Stop.Harmless, h.count, h.pending, h.rollback]

/-- Before an attempt gets as far as the flag the next one repairs everything;
afterwards all of them skip. -/
def Invariant (b : Program) (f₀ f : Files) : Option Attempt → Prop
  | none => Ready b f ∧ Frame f₀ f
  | some c => ¬ Holds f.upgrade_available one ∧ (Recovered b f ↔ Completes f₀ c)

theorem step_invariant {b : Program} {f₀ f f' : Files} {g : Option Attempt} {a : Attempt}
    (hi : Invariant b f₀ f g) (h : Step f a f') : Invariant b f₀ f' (watch g f a) := by
  obtain rfl := h
  cases g with
  | some c =>
    rw [invoke_skips hi.1]
    exact hi
  | none =>
    obtain ⟨hr, hf⟩ := hi
    cases a with
    | none =>
      have hc := leaves_cleared (p := .removing true true) rfl b f
      have hrec := invoke_none_recovered hr
      rw [invoke_none hr] at hrec ⊢
      exact ⟨hc.1, fun _ => trivial, fun _ => hrec⟩
    | some p =>
      rw [invoke_ready hr]
      cases hp : p.clears with
      | false =>
        have hl := leaves_frame hp b f
        have hw : watch none f (some p) = none := by simp [watch, clears, hp]
        rw [hw]
        refine ⟨⟨?_, ?_, hr.executable⟩, hf.trans hl⟩
        · rw [hl.upgrade]
          exact hr.flag
        · rw [hl.backup]
          exact hr.backup
      | true =>
        have hw : watch none f (some p) = some (some p) := by simp [watch, clears, hp]
        rw [hw]
        exact ⟨(leaves_cleared hp b f).1, (leaves_recovered hp b f).trans (p.harmless_frame hf)⟩

theorem run_invariant {b : Program} {f₀ : Files} (h : Ready b f₀) {as : List Attempt}
    {p : Files × Option Attempt} (run : Run (Watched Step watch) (f₀, none) as p) :
    Invariant b f₀ p.1 p.2 := by
  have hstart : Invariant b f₀ f₀ none := ⟨h, .refl f₀⟩
  exact run.watched hstart fun _ _ _ _ => step_invariant

/-- Once an invocation exits with success, the rollback is complete if and only
if the first invocation which got as far as the flag was not stopped, or was
stopped with nothing left to do. -/
theorem recovers_iff {b : Program} {f₀ f : Files} (h : Ready b f₀) {as : List Attempt}
    {g : Option Attempt} (run : Run (Watched Step watch) (f₀, none) as (f, g)) {a : Attempt}
    (hx : (invoke a f).2 = true) :
    Recovered b (invoke a f).1 ↔ ∃ c, watch g f a = some c ∧ Completes f₀ c := by
  have hi := run_invariant h run
  cases g with
  | none =>
    obtain ⟨hr, -⟩ := hi
    cases a with
    | some p =>
      rw [invoke_ready hr] at hx
      cases hx
    | none => exact ⟨fun _ => ⟨none, rfl, trivial⟩, fun _ => invoke_none_recovered hr⟩
  | some c =>
    obtain ⟨hn, hc⟩ := hi
    rw [invoke_skips hn, hc]
    exact ⟨fun hd => ⟨c, rfl, hd⟩, fun ⟨_, rfl, hd⟩ => hd⟩

/-- A new program on trial, and the files its installation leaves. -/
def onTrial : Files :=
  ⟨some ⟨[1, 2], 0o755⟩, some ⟨[3, 4, 5], 0o755⟩, some [49, 10], some [50, 10], some [], some []⟩

theorem onTrial_ready : Ready ⟨[3, 4, 5], 0o755⟩ onTrial := ⟨by decide, rfl, by decide⟩

theorem recovers_after_two_stops : ∃ f,
    Run (Watched Step watch) (onTrial, none) [some (.copying 1), some .restored] (f, none) ∧
    f.app = some ⟨[3, 4, 5], 0o755⟩ ∧ Recovered ⟨[3, 4, 5], 0o755⟩ (invoke none f).1 := by
  have run₁ : Run (Watched Step watch) (onTrial, none) [some (.copying 1)]
      (onTrial.copying ⟨[3, 4, 5], 0o755⟩ 1, none) := .single ⟨rfl, rfl⟩
  have run : Run (Watched Step watch) (onTrial, none) [some (.copying 1), some .restored]
      ((onTrial.copying ⟨[3, 4, 5], 0o755⟩ 1).restored ⟨[3, 4, 5], 0o755⟩, none) :=
    run₁.snoc ⟨rfl, rfl⟩
  have hx : (invoke none ((onTrial.copying ⟨[3, 4, 5], 0o755⟩ 1).restored
      ⟨[3, 4, 5], 0o755⟩)).2 = true := by decide
  exact ⟨_, run, rfl, (recovers_iff onTrial_ready run (a := none) hx).mpr ⟨none, rfl, trivial⟩⟩

/-- Stopped after it cleared the flag, a rollback never gets to its cleanup: the
next invocation skips, and exits with success. -/
theorem skipped_cleanup : ¬ ∀ (b : Program) (f₀ f : Files) (as : List Attempt) (a : Attempt),
    Ready b f₀ → Run Step f₀ as f → (invoke a f).2 = true → Recovered b (invoke a f).1 := by
  intro h
  have run : Run Step onTrial [some .flagCleared] (onTrial.flagged ⟨[3, 4, 5], 0o755⟩) :=
    .single rfl
  have hr := h _ _ _ _ none onTrial_ready run (by decide)
  exact absurd hr.count (by decide)

/-- The invocation gets to `cp`. -/
def reached (f : Files) : Bool :=
  decide (Holds f.upgrade_available one) && f.backup.any (·.executable)

/-- The program was written, and has not been made executable since. -/
def unfinished (u : Bool) (f : Files) (a : Attempt) : Bool :=
  if reached f then
    match a with
    | some .idle => u
    | some (.copying _) => true
    | _ => false
  else u

/-- The program is neither the original nor the backup, or `chmod` is still to come. -/
def Broken (original : Bytes) (b : Program) (f : Files) (u : Bool) : Prop :=
  (∀ a, f.app = some a → a.content ≠ original ∧ a.content ≠ b.content) ∨ u = true

/-- Either the next invocation does the whole chain, or the program is the backup. -/
structure Repairable (b : Program) (f : Files) (u : Bool) : Prop where
  backup : f.backup = some b
  executable : b.executable
  flag : Holds f.upgrade_available one ∨ f.app = some ⟨b.content, 0o755⟩ ∧ u = false

theorem Repairable.ready {b : Program} {f : Files} {u : Bool} (h : Repairable b f u)
    (hf : Holds f.upgrade_available one) : Ready b f := ⟨hf, h.backup, h.executable⟩

theorem reached_ready {b : Program} {f : Files} (h : Ready b f) : reached f = true := by
  simp [reached, h.flag, h.backup, h.executable]

theorem reached_flag {f : Files} (h : ¬ Holds f.upgrade_available one) : reached f = false := by
  simp [reached, h]

theorem repairable_step {b : Program} {f f' : Files} {u : Bool} {a : Attempt}
    (hi : Repairable b f u) (h : Step f a f') : Repairable b f' (unfinished u f a) := by
  obtain rfl := h
  by_cases hf : Holds f.upgrade_available one
  · have hr := hi.ready hf
    have hu := reached_ready hr
    cases a with
    | none =>
      rw [invoke_none hr]
      refine ⟨(leaves_backup ..).trans hi.backup, hi.executable, .inr ⟨?_, ?_⟩⟩
      · exact (leaves_cleared (p := .removing true true) rfl b f).2
      · simp [unfinished, hu]
    | some p =>
      rw [invoke_ready hr]
      refine ⟨(leaves_backup p b f).trans hi.backup, hi.executable, ?_⟩
      cases hp : p.clears with
      | false =>
        left
        have hl := leaves_frame hp b f
        rw [hl.upgrade]
        exact hf
      | true =>
        right
        refine ⟨(leaves_cleared hp b f).2, ?_⟩
        cases p <;> simp [unfinished, hu, Stop.clears] at hp ⊢
  · have hu : unfinished u f a = u := by
      simp [unfinished, reached_flag hf]
    rw [invoke_skips hf, hu]
    exact hi

theorem repairable_run {b : Program} {f₀ : Files} (h : Ready b f₀) {as : List Attempt}
    {p : Files × Bool} (run : Run (Watched Step unfinished) (f₀, false) as p) :
    Repairable b p.1 p.2 := by
  have hstart : Repairable b f₀ false := ⟨h.backup, h.executable, .inl h.flag⟩
  exact run.watched hstart fun _ _ _ _ => repairable_step

/-- In every state of every run a broken program still has its flag and its
backup, and one invocation which is not stopped restores it; without the flag
the program is the backup, and executable. -/
theorem broken_repairable {b : Program} {f₀ f : Files} (h : Ready b f₀) (original : Bytes)
    {as : List Attempt} {u : Bool}
    (run : Run (Watched Step unfinished) (f₀, false) as (f, u)) :
    (Broken original b f u → Holds f.upgrade_available one ∧ f.backup = f₀.backup ∧
      (invoke none f).2 = true ∧ Recovered b (invoke none f).1) ∧
    (¬ Holds f.upgrade_available one →
      ∃ a, f.app = some a ∧ a.content = b.content ∧ a.executable) := by
  have hi := repairable_run h run
  have hdone (ha : f.app = some ⟨b.content, 0o755⟩) :
      ∃ a, f.app = some a ∧ a.content = b.content ∧ a.executable :=
    ⟨_, ha, rfl, executable_0755 _⟩
  constructor
  · intro hb
    have hf : Holds f.upgrade_available one := by
      rcases hi.flag with hf | ⟨ha, hu⟩
      · exact hf
      · rcases hb with hb | hb
        · exact ((hb _ ha).2 rfl).elim
        · cases hb.symm.trans hu
    have hr := hi.ready hf
    refine ⟨hf, hi.backup.trans h.backup.symm, ?_, invoke_none_recovered hr⟩
    rw [invoke_none hr]
  · intro hf
    exact hdone (hi.flag.resolve_left hf).1

theorem broken_repairable_in_cp : ∃ f,
    Run (Watched Step unfinished) (onTrial, false) [some (.copying 1)] (f, true) ∧
    f.app = some ⟨[3], 0o755⟩ ∧ Holds f.upgrade_available one ∧
    Recovered ⟨[3, 4, 5], 0o755⟩ (invoke none f).1 := by
  have run : Run (Watched Step unfinished) (onTrial, false) [some (.copying 1)]
      (onTrial.copying ⟨[3, 4, 5], 0o755⟩ 1, true) := .single ⟨rfl, by decide⟩
  obtain ⟨hf, -, -, hr⟩ := (broken_repairable onTrial_ready [1, 2] run).1 (.inr rfl)
  exact ⟨_, run, rfl, hf, hr⟩

end Okm6ullOta.AppRollback
