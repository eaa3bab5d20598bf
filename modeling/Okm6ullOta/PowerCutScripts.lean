import Mathlib.Data.List.Infix
import Mathlib.Tactic.Common

/-!
# Loop-free command scripts whose power can be cut between two commands

Scripts are trees of commands with explicit tails. The condition of a branch is
a command too, as in a shell: the branch follows its exit status. The meaning
of a command is a parameter; it may change the state, append observable events
to the log, fail, and halt the machine.

`eval` is the uncut execution and `after n` is the execution which loses power
after `n` commands. The two are connected here once: a cut execution has logged
a prefix of the uncut log, and whatever part of the state is determined by the
logged events is determined by that prefix.
-/
namespace Okm6ullOta.PowerCutScripts

inductive Script (α : Type*) where
  | done
  | cmd (a : α) (rest : Script α)
  | branch (a : α) (yes no rest : Script α)

namespace Script
variable {α : Type*}

def seq : Script α → Script α → Script α
  | done, q => q
  | cmd a rest, q => cmd a (rest.seq q)
  | branch a yes no rest, q => branch a yes no (rest.seq q)

def one (a : α) : Script α := .cmd a .done

def ifElse (a : α) (yes no : Script α) : Script α := .branch a yes no .done

def ifThen (a : α) (yes : Script α) : Script α := ifElse a yes .done

/-- `a || b` -/
def orElse (a b : α) : Script α := .branch a .done (one b) .done

def block : List (Script α) → Script α
  | [] => .done
  | p :: ps => p.seq (block ps)

/-- A bound on the number of commands executed, whichever branches are taken. -/
def size : Script α → ℕ
  | done => 0
  | cmd _ rest => rest.size + 1
  | branch _ yes no rest => yes.size + no.size + rest.size + 1

theorem size_seq (p q : Script α) : (p.seq q).size = p.size + q.size := by
  induction p with
  | done => simp only [seq, size, Nat.zero_add]
  | cmd a rest ih => simp only [seq, size, ih]; omega
  | branch a yes no rest _ _ ih => simp only [seq, size, ih]; omega

theorem seq_assoc (p q r : Script α) : (p.seq q).seq r = p.seq (q.seq r) := by
  induction p with
  | done => rfl
  | cmd a rest ih => simp only [seq, ih]
  | branch a yes no rest _ _ ih => simp only [seq, ih]

end Script

/-- What one command leaves: `ok` is its exit status, `halted` means that no
further command of the script runs (a reset, or another program in control). -/
structure Reply (σ ε : Type*) where
  state : σ
  log : List ε
  ok : Bool
  halted : Bool

structure Outcome (σ ε : Type*) where
  state : σ
  log : List ε
  halted : Bool

variable {α σ ε β : Type*}

def Reply.outcome (r : Reply σ ε) : Outcome σ ε := ⟨r.state, r.log, r.halted⟩

/-- The only sequencing there is: a halted outcome absorbs what follows. -/
def Outcome.andThen (o : Outcome σ ε) (f : σ → Outcome σ ε) : Outcome σ ε :=
  if o.halted then o
  else ⟨(f o.state).state, o.log ++ (f o.state).log, (f o.state).halted⟩

@[simp] theorem andThen_halted (s : σ) (l : List ε) (f : σ → Outcome σ ε) :
    Outcome.andThen ⟨s, l, true⟩ f = ⟨s, l, true⟩ := rfl

@[simp] theorem andThen_running (s : σ) (l : List ε) (f : σ → Outcome σ ε) :
    Outcome.andThen ⟨s, l, false⟩ f = ⟨(f s).state, l ++ (f s).log, (f s).halted⟩ := rfl

theorem andThen_quiet (s : σ) (f : σ → Outcome σ ε) : Outcome.andThen ⟨s, [], false⟩ f = f s := by
  simp

theorem andThen_assoc (o : Outcome σ ε) (f g : σ → Outcome σ ε) :
    (o.andThen f).andThen g = o.andThen (fun s => (f s).andThen g) := by
  rcases o with ⟨s, l, h⟩
  cases h with
  | true => rfl
  | false =>
    simp only [andThen_running]
    rcases f s with ⟨t, m, k⟩
    cases k <;> simp

section
variable (exec : α → σ → Reply σ ε)

def eval : Script α → σ → Outcome σ ε
  | .done, s => ⟨s, [], false⟩
  | .cmd a rest, s => (exec a s).outcome.andThen (eval rest)
  | .branch a yes no rest, s =>
    ((exec a s).outcome.andThen
      (fun t => if (exec a s).ok then eval yes t else eval no t)).andThen (eval rest)

theorem eval_seq (p q : Script α) (s : σ) :
    eval exec (p.seq q) s = (eval exec p s).andThen (eval exec q) := by
  induction p generalizing s with
  | done => simp [Script.seq, eval]
  | cmd a rest ih =>
    simp only [Script.seq, eval, andThen_assoc]
    congr 1
    funext t
    exact ih t
  | branch a yes no rest _ _ ih =>
    simp only [Script.seq, eval, andThen_assoc]
    congr 1
    funext t
    congr 1
    funext u
    exact ih u

theorem eval_block_cons (p : Script α) (ps : List (Script α)) (s : σ) :
    eval exec (.block (p :: ps)) s = (eval exec p s).andThen (eval exec (.block ps)) :=
  eval_seq exec p (.block ps) s

@[simp] theorem eval_done (s : σ) : eval exec .done s = ⟨s, [], false⟩ := rfl

theorem andThen_done (o : Outcome σ ε) : o.andThen (eval exec .done) = o := by
  rcases o with ⟨s, l, h⟩
  cases h <;> simp

@[simp] theorem eval_block_nil (s : σ) : eval exec (.block []) s = ⟨s, [], false⟩ := rfl

theorem eval_one (a : α) (s : σ) : eval exec (.one a) s = (exec a s).outcome :=
  andThen_done exec _

theorem eval_ifElse (a : α) (p q : Script α) (s : σ) :
    eval exec (.ifElse a p q) s = (exec a s).outcome.andThen
      (fun t => if (exec a s).ok then eval exec p t else eval exec q t) :=
  andThen_done exec _

theorem eval_orElse (a b : α) (s : σ) :
    eval exec (.orElse a b) s = (exec a s).outcome.andThen
      (fun t => if (exec a s).ok then ⟨t, [], false⟩ else (exec b t).outcome) := by
  refine (eval_ifElse exec a .done (.one b) s).trans ?_
  simp only [eval_one, eval_done]

theorem eval_block_one (p : Script α) (s : σ) : eval exec (.block [p]) s = eval exec p s :=
  (eval_block_cons exec p [] s).trans (andThen_done exec _)

/-- A running machine: what is left of the script, and what was logged. -/
structure Config (α σ ε : Type*) where
  script : Script α
  state : σ
  log : List ε

/-- One command. A halting command leaves nothing to run. -/
def tick (c : Config α σ ε) : Option (Config α σ ε) :=
  match c.script with
  | .done => none
  | .cmd a rest =>
    some ⟨if (exec a c.state).halted then .done else rest,
      (exec a c.state).state, c.log ++ (exec a c.state).log⟩
  | .branch a yes no rest =>
    some ⟨if (exec a c.state).halted then .done
        else (if (exec a c.state).ok then yes else no).seq rest,
      (exec a c.state).state, c.log ++ (exec a c.state).log⟩

/-- The machine at a power cut after `n` commands (sooner, if it stopped). -/
def after : ℕ → Config α σ ε → Config α σ ε
  | 0, c => c
  | n + 1, c =>
    match tick exec c with
    | none => c
    | some d => after n d

def boot (p : Script α) (s : σ) : Config α σ ε := ⟨p, s, []⟩

/-- What the machine would have logged, and its state, if it were not cut. -/
def Config.uncut (c : Config α σ ε) : σ × List ε :=
  ((eval exec c.script c.state).state, c.log ++ (eval exec c.script c.state).log)

theorem tick_uncut {c d : Config α σ ε} (h : tick exec c = some d) :
    d.uncut exec = c.uncut exec := by
  rcases c with ⟨p, s, l⟩
  cases p with
  | done => simp [tick] at h
  | cmd a rest =>
    simp only [tick, Option.some.injEq] at h
    subst h
    rcases hr : exec a s with ⟨t, m, ok, halted⟩
    cases halted <;> simp [Config.uncut, eval, Reply.outcome, hr]
  | branch a yes no rest =>
    simp only [tick, Option.some.injEq] at h
    subst h
    rcases hr : exec a s with ⟨t, m, ok, halted⟩
    cases halted with
    | true => simp [Config.uncut, eval, Reply.outcome, hr]
    | false =>
      have hs := eval_seq exec (if ok then yes else no) rest t
      simp only [Config.uncut, eval, Reply.outcome, hr, Bool.false_eq_true, if_false, hs,
        andThen_running]
      cases ok
      · rcases he : eval exec no t with ⟨u, k, hb⟩
        cases hb <;> simp [he]
      · rcases he : eval exec yes t with ⟨u, k, hb⟩
        cases hb <;> simp [he]

theorem tick_size {c d : Config α σ ε} (h : tick exec c = some d) :
    d.script.size < c.script.size := by
  rcases c with ⟨p, s, l⟩
  cases p with
  | done => simp [tick] at h
  | cmd a rest =>
    simp only [tick, Option.some.injEq] at h
    subst h
    dsimp only
    split_ifs <;> simp only [Script.size] <;> omega
  | branch a yes no rest =>
    simp only [tick, Option.some.injEq] at h
    subst h
    dsimp only
    split_ifs <;> simp only [Script.size, Script.size_seq] <;> omega

theorem after_uncut (n : ℕ) (c : Config α σ ε) :
    (after exec n c).uncut exec = c.uncut exec := by
  induction n generalizing c with
  | zero => rfl
  | succ n ih =>
    unfold after
    cases h : tick exec c with
    | none => rfl
    | some d => exact (ih d).trans (tick_uncut exec h)

/-- A power cut leaves a prefix of the uncut log, wherever it falls. -/
theorem after_log_prefix (n : ℕ) (p : Script α) (s : σ) :
    (after exec n (boot p s)).log <+: (eval exec p s).log := by
  have h := congrArg Prod.snd (after_uncut exec n (boot p s))
  simp only [Config.uncut, boot, List.nil_append] at h
  rw [← h]
  exact List.prefix_append _ _

theorem after_stopped {n : ℕ} {c : Config α σ ε} (hn : c.script.size ≤ n) :
    (after exec n c).script = .done := by
  induction n generalizing c with
  | zero =>
    rcases c with ⟨p, s, l⟩
    cases p <;> simp_all [after, Script.size]
  | succ n ih =>
    unfold after
    cases h : tick exec c with
    | none =>
      rcases c with ⟨p, s, l⟩
      cases p <;> simp_all [tick]
    | some d =>
      have := tick_size exec h
      exact ih (by omega)

/-- Enough time for every command is an uncut execution. -/
theorem after_size {n : ℕ} {p : Script α} (hn : p.size ≤ n) (s : σ) :
    (after exec n (boot p s)).state = (eval exec p s).state ∧
      (after exec n (boot p s)).log = (eval exec p s).log := by
  have hd := after_stopped exec (c := boot (ε := ε) p s) hn
  have h := after_uncut exec n (boot p s)
  unfold Config.uncut at h
  rw [hd] at h
  simp only [eval, List.append_nil, boot, List.nil_append, Prod.mk.injEq] at h
  exact h

theorem after_add (m n : ℕ) (c : Config α σ ε) :
    after exec (m + n) c = after exec n (after exec m c) := by
  induction m generalizing c with
  | zero => rw [Nat.zero_add, after]
  | succ m ih =>
    rw [Nat.succ_add]
    simp only [after]
    cases h : tick exec c with
    | some d => exact ih d
    | none =>
      cases n with
      | zero => rfl
      | succ n => simp only [after, h]

theorem after_script_le (n : ℕ) (c : Config α σ ε) :
    (after exec n c).script.size ≤ c.script.size := by
  induction n generalizing c with
  | zero => exact Nat.le_refl _
  | succ n ih =>
    unfold after
    cases h : tick exec c with
    | none => exact Nat.le_refl _
    | some d => exact (ih d).trans (tick_size exec h).le

theorem after_script_lt {n : ℕ} {c : Config α σ ε} (hn : n ≠ 0) (hc : c.script ≠ .done) :
    (after exec n c).script.size < c.script.size := by
  obtain ⟨n, rfl⟩ := Nat.exists_eq_succ_of_ne_zero hn
  unfold after
  cases h : tick exec c with
  | none =>
    rcases c with ⟨p, s, l⟩
    cases p <;> simp_all [tick]
  | some d => exact (after_script_le exec n d).trans_lt (tick_size exec h)

/-- A script comes by the same remainder only once. -/
theorem after_script_injective {m n : ℕ} {c : Config α σ ε}
    (h : (after exec m c).script = (after exec n c).script)
    (hd : (after exec m c).script ≠ .done) : m = n := by
  have later : ∀ {m n : ℕ}, m < n → (after exec m c).script = (after exec n c).script →
      (after exec m c).script = .done := by
    intro m n hmn h
    obtain ⟨k, rfl⟩ := Nat.exists_eq_add_of_lt hmn
    rw [Nat.add_assoc, after_add] at h
    by_contra hd
    have hl := after_script_lt exec (n := k + 1) (Nat.succ_ne_zero k) hd
    rw [← h] at hl
    exact Nat.lt_irrefl _ hl
  rcases Nat.lt_trichotomy m n with hl | he | hl
  · exact absurd (later hl h) hd
  · exact he
  · exact absurd (h.trans (later hl h.symm)) hd

/-- The first part of a script is executed to its end unless it halts. -/
theorem after_seq (p q : Script α) (s : σ) (l : List ε) (hp : (eval exec p s).halted = false) :
    ∃ n ≤ p.size, after exec n ⟨p.seq q, s, l⟩ =
      ⟨q, (eval exec p s).state, l ++ (eval exec p s).log⟩ := by
  induction hk : p.size using Nat.strongRecOn generalizing p s l with
  | ind k ih =>
    cases p with
    | done => exact ⟨0, Nat.zero_le _, by simp [after, Script.seq]⟩
    | cmd a rest =>
      rcases hr : exec a s with ⟨t, m, ok, halted⟩
      cases halted with
      | true => simp [eval, Reply.outcome, hr] at hp
      | false =>
        simp only [eval, Reply.outcome, hr, andThen_running] at hp ⊢
        simp only [Script.size] at hk
        obtain ⟨n, hn, ha⟩ := ih rest.size (by omega) rest t (l ++ m) hp rfl
        refine ⟨n + 1, by omega, ?_⟩
        simp only [after, tick, Script.seq, hr, Bool.false_eq_true, if_false, ha, List.append_assoc]
    | branch a yes no rest =>
      rcases hr : exec a s with ⟨t, m, ok, halted⟩
      cases halted with
      | true => simp [eval, Reply.outcome, hr] at hp
      | false =>
        have hb : eval exec (.branch a yes no rest) s =
            Outcome.andThen ⟨t, m, false⟩ (eval exec ((if ok then yes else no).seq rest)) := by
          rw [eval, hr, andThen_assoc]
          refine congrArg _ (funext fun u => ?_)
          rw [eval_seq]
          cases ok <;> rfl
        have hx : ((if ok then yes else no).seq rest).size < k := by
          rw [← hk, Script.size_seq, Script.size]
          cases ok with
          | false =>
            simp only [Bool.false_eq_true, if_false]
            omega
          | true =>
            simp only [if_true]
            omega
        rw [hb, andThen_running] at hp ⊢
        obtain ⟨n, hn, ha⟩ := ih _ hx ((if ok then yes else no).seq rest) t (l ++ m) hp rfl
        refine ⟨n + 1, by omega, ?_⟩
        rw [Script.seq_assoc] at ha
        simp only [after, tick, Script.seq, hr, Bool.false_eq_true, if_false, ha, List.append_assoc]

theorem after_reaches {p : Script α} {s : σ} (q : Script α) (hp : (eval exec p s).halted = false) :
    ∃ n ≤ p.size, after exec n (boot (p.seq q) s) =
      ⟨q, (eval exec p s).state, (eval exec p s).log⟩ := by
  obtain ⟨n, hn, ha⟩ := after_seq exec p q s [] hp
  exact ⟨n, hn, ha⟩

/-- Whenever the second part of a script is what is left, the first part has been
executed. -/
theorem after_point {p q : Script α} {s : σ} {n : ℕ} (hp : (eval exec p s).halted = false)
    (hq : q ≠ .done) (hn : (after exec n (boot (p.seq q) s)).script = q) :
    (after exec n (boot (p.seq q) s)).state = (eval exec p s).state := by
  obtain ⟨k, -, hk⟩ := after_reaches exec q hp
  have hs : (after exec n (boot (p.seq q) s)).script =
    (after exec k (boot (p.seq q) s)).script := by
    rw [hn, hk]
  have hd : (after exec n (boot (p.seq q) s)).script ≠ .done := by
    rw [hn]
    exact hq
  rw [after_script_injective exec hs hd, hk]

/-- The events of every command say what it does to the observed part `view`
of the state: `absorb` replays them. -/
def Tracks (view : σ → β) (absorb : β → ε → β) : Prop :=
  ∀ a s, view (exec a s).state = (exec a s).log.foldl absorb (view s)

variable {exec} {view : σ → β} {absorb : β → ε → β}

theorem Tracks.tick (ht : Tracks exec view absorb) {b : β} {c d : Config α σ ε}
    (hc : view c.state = c.log.foldl absorb b) (h : tick exec c = some d) :
    view d.state = d.log.foldl absorb b := by
  rcases c with ⟨p, s, l⟩
  cases p <;> simp only [PowerCutScripts.tick, Option.some.injEq, reduceCtorEq] at h <;>
    subst h <;> simp only [List.foldl_append, ht _ s] <;> rw [hc]

/-- What a cut execution leaves of the observed state is what its log replays. -/
theorem Tracks.after (ht : Tracks exec view absorb) (n : ℕ) (p : Script α) (s : σ) :
    view (after exec n (boot p s)).state =
      (PowerCutScripts.after exec n (boot p s)).log.foldl absorb (view s) := by
  have aux : ∀ n (c : Config α σ ε), view c.state = c.log.foldl absorb (view s) →
      view (PowerCutScripts.after exec n c).state =
        (PowerCutScripts.after exec n c).log.foldl absorb (view s) := by
    intro n
    induction n with
    | zero => exact fun c hc => hc
    | succ n ih =>
      intro c hc
      unfold PowerCutScripts.after
      cases h : PowerCutScripts.tick exec c with
      | none => exact hc
      | some d => exact ih d (ht.tick hc h)
  exact aux n (boot p s) rfl

end

end Okm6ullOta.PowerCutScripts
