import Mathlib.Logic.Basic
import Mathlib.Logic.Function.Basic

/-! # Two calls that take turns

A call is a tree of atomic steps: each looks at the shared state, has an effect on it, and
goes on with what it saw. What holds of a call's effects as long as the state is as `I` says is
proved along the tree; what holds of two calls whose steps alternate, along the schedule. -/
namespace Interleaving

inductive Program (σ ε α : Type*) where
  | pure (a : α)
  | step (effect : σ → ε) (next : σ → Program σ ε α)

section Programs

variable {σ ε α β : Type*}

namespace Program

def bind : Program σ ε α → (α → Program σ ε β) → Program σ ε β
  | pure a, f => f a
  | step effect next, f => step effect fun s => (next s).bind f

def result : Program σ ε α → Option α
  | pure a => some a
  | step _ _ => none

def run (apply : ε → σ → σ) : Program σ ε α → σ → α × σ
  | pure a, s => (a, s)
  | step effect next, s => (next s).run apply (apply (effect s) s)

/-- In states as `I` says, whoever changed them in between, every effect is as `E` says, and
the result as `Q`. -/
def Meets (I : σ → Prop) (E : ε → Prop) (Q : α → Prop) : Program σ ε α → Prop
  | pure a => Q a
  | step effect next => ∀ s, I s → E (effect s) ∧ (next s).Meets I E Q

variable {apply : ε → σ → σ} {I : σ → Prop} {E : ε → Prop} {Q : α → Prop} {Q' : β → Prop}

theorem run_bind (t : Program σ ε α) (f : α → Program σ ε β) (s : σ) :
    (t.bind f).run apply s = (f (t.run apply s).1).run apply (t.run apply s).2 := by
  induction t generalizing s with
  | pure a => rfl
  | step effect next ih => exact ih s _

theorem meets_step {effect : σ → ε} {next : σ → Program σ ε α} (heffect : ∀ s, I s → E (effect s))
    (hnext : ∀ s, I s → (next s).Meets I E Q) : (step effect next).Meets I E Q :=
  fun s hs => ⟨heffect s hs, hnext s hs⟩

theorem meets_bind {t : Program σ ε α} {f : α → Program σ ε β} (h : t.Meets I E Q)
    (hf : ∀ a, Q a → (f a).Meets I E Q') : (t.bind f).Meets I E Q' := by
  induction t with
  | pure a => exact hf a h
  | step effect next ih => exact fun s hs => ⟨(h s hs).1, ih s (h s hs).2⟩

theorem Meets.mono {I₂ : σ → Prop} {E₂ : ε → Prop} {Q₂ : α → Prop} {t : Program σ ε α}
    (h : t.Meets I E Q) (hI : ∀ s, I₂ s → I s) (hE : ∀ e, E e → E₂ e) (hQ : ∀ a, Q a → Q₂ a) :
    t.Meets I₂ E₂ Q₂ := by
  induction t with
  | pure a => exact hQ a h
  | step effect next ih =>
    intro s hs
    obtain ⟨heffect, hnext⟩ := h s (hI s hs)
    exact ⟨hE _ heffect, ih s hnext⟩

end Program

inductive Side where
  | first
  | second
  deriving DecidableEq, Repr

structure Pair (σ ε α β : Type*) where
  first : Program σ ε α
  second : Program σ ε β
  state : σ

namespace Pair

variable {apply : ε → σ → σ}

def turn (apply : ε → σ → σ) (c : Pair σ ε α β) : Side → Pair σ ε α β
  | .first =>
    match c.first with
    | .pure _ => c
    | .step effect next => ⟨next c.state, c.second, apply (effect c.state) c.state⟩
  | .second =>
    match c.second with
    | .pure _ => c
    | .step effect next => ⟨c.first, next c.state, apply (effect c.state) c.state⟩

def turns (apply : ε → σ → σ) : Pair σ ε α β → List Side → Pair σ ε α β
  | c, [] => c
  | c, side :: sides => (c.turn apply side).turns apply sides

def effect (c : Pair σ ε α β) : Side → Option ε
  | .first =>
    match c.first with
    | .pure _ => none
    | .step effect _ => some (effect c.state)
  | .second =>
    match c.second with
    | .pure _ => none
    | .step effect _ => some (effect c.state)

def Along (apply : ε → σ → σ) (C : Pair σ ε α β → ε → Prop) :
    Pair σ ε α β → List Side → Prop
  | _, [] => True
  | c, side :: sides => (∀ e, c.effect side = some e → C c e) ∧
      (c.turn apply side).Along apply C sides

def Returned (c : Pair σ ε α β) : Prop := (∃ a, c.first = .pure a) ∧ ∃ b, c.second = .pure b

/-- The rule of the schedule: an invariant that the steps of either side keep. -/
theorem turns_invariant {J : Pair σ ε α β → Prop} {C : Pair σ ε α β → ε → Prop}
    (hfirst : ∀ c effect next, J c → c.first = .step effect next → C c (effect c.state) →
      J ⟨next c.state, c.second, apply (effect c.state) c.state⟩)
    (hsecond : ∀ c effect next, J c → c.second = .step effect next → C c (effect c.state) →
      J ⟨c.first, next c.state, apply (effect c.state) c.state⟩)
    (sides : List Side) : ∀ c : Pair σ ε α β, J c → c.Along apply C sides →
      J (c.turns apply sides) := by
  have hturn : ∀ (c : Pair σ ε α β) (side : Side), J c →
      (∀ e, c.effect side = some e → C c e) → J (c.turn apply side) := by
    intro c side hJ hC
    cases side with
    | first =>
      unfold turn
      unfold effect at hC
      dsimp only at hC ⊢
      split at hC
      · exact hJ
      · rename_i effect next hstep
        exact hfirst c effect next hJ hstep (hC _ rfl)
    | second =>
      unfold turn
      unfold effect at hC
      dsimp only at hC ⊢
      split at hC
      · exact hJ
      · rename_i effect next hstep
        exact hsecond c effect next hJ hstep (hC _ rfl)
  induction sides with
  | nil => exact fun _ hJ _ => hJ
  | cons side sides ih =>
    intro c hJ hC
    exact ih _ (hturn c side hJ hC.1) hC.2

end Pair

/-! Any number of calls -/

structure Pool (ι σ ε α : Type*) where
  calls : ι → Program σ ε α
  state : σ

namespace Pool

variable {ι : Type*} [DecidableEq ι] {apply : ε → σ → σ}

def turn (apply : ε → σ → σ) (c : Pool ι σ ε α) (i : ι) : Pool ι σ ε α :=
  match c.calls i with
  | .pure _ => c
  | .step effect next => ⟨Function.update c.calls i (next c.state), apply (effect c.state) c.state⟩

def turns (apply : ε → σ → σ) : Pool ι σ ε α → List ι → Pool ι σ ε α
  | c, [] => c
  | c, i :: schedule => (c.turn apply i).turns apply schedule

def Along (apply : ε → σ → σ) (C : Pool ι σ ε α → ι → Prop) : Pool ι σ ε α → List ι → Prop
  | _, [] => True
  | c, i :: schedule => C c i ∧ (c.turn apply i).Along apply C schedule

def Returns (apply : ε → σ → σ) (c : Pool ι σ ε α) (i : ι) (a : α) : Prop :=
  (c.calls i).result = none ∧ ((c.turn apply i).calls i).result = some a

theorem turns_invariant {J : Pool ι σ ε α → Prop} {C : Pool ι σ ε α → ι → Prop}
    (hturn : ∀ c i, J c → C c i → J (c.turn apply i)) (schedule : List ι) :
    ∀ c, J c → c.Along apply C schedule → J (c.turns apply schedule) := by
  induction schedule with
  | nil => exact fun _ hJ _ => hJ
  | cons i schedule ih => exact fun c hJ hC => ih _ (hturn c i hJ hC.1) hC.2

/-- What every effect keeps of the state, every schedule keeps. -/
theorem turns_keep {J : σ → Prop} (hstep : ∀ e s, J s → J (apply e s)) (schedule : List ι) :
    ∀ c : Pool ι σ ε α, J c.state → J (c.turns apply schedule).state := by
  induction schedule with
  | nil => exact fun _ h => h
  | cons i schedule ih =>
    intro c h
    refine ih _ ?_
    unfold turn
    split
    · exact h
    · exact hstep _ _ h

theorem turn_other {c : Pool ι σ ε α} {i j : ι} (h : j ≠ i) :
    (c.turn apply i).calls j = c.calls j := by
  unfold turn
  split
  · rfl
  · exact Function.update_of_ne h ..

theorem turn_step {c : Pool ι σ ε α} {i : ι} {effect : σ → ε} {next : σ → Program σ ε α}
    (h : c.calls i = .step effect next) :
    (c.turn apply i).calls i = next c.state ∧
      (c.turn apply i).state = apply (effect c.state) c.state := by
  rw [turn, h]
  exact ⟨Function.update_self .., rfl⟩

end Pool

/-! Calls whose steps are statements that may fail -/

section Statements

variable {err : Type*}

def statements (check : ε → σ → Except err Unit) : List ε → Program σ ε (Except err Unit)
  | [] => .pure (.ok ())
  | e :: es => .step (fun _ => e) fun s =>
    match check e s with
    | .ok () => statements check es
    | .error x => .pure (.error x)

def merged : List ε → List ε → List Side → List ε
  | _, _, [] => []
  | e :: es, fs, .first :: sides => e :: merged es fs sides
  | [], fs, .first :: sides => merged [] fs sides
  | es, f :: fs, .second :: sides => f :: merged es fs sides
  | es, [], .second :: sides => merged es [] sides

def Succeeds (check : ε → σ → Except err Unit) (apply : ε → σ → σ) : σ → List ε → Prop
  | _, [] => True
  | s, e :: es => check e s = .ok () ∧ Succeeds check apply (apply e s) es

variable {check : ε → σ → Except err Unit} {apply : ε → σ → σ}

theorem merged_map {ι : Type*} (f : ε → ι) (es fs : List ε) (sides : List Side) :
    merged (es.map f) (fs.map f) sides = (merged es fs sides).map f := by
  induction sides generalizing es fs with
  | nil =>
    rw [merged, merged]
    rfl
  | cons side sides ih =>
    cases side with
    | first =>
      cases es with
      | nil => exact ih [] fs
      | cons e es => exact congrArg (f e :: ·) (ih es fs)
    | second =>
      cases fs with
      | nil =>
        cases es with
        | nil => exact ih [] []
        | cons e es => exact ih (e :: es) []
      | cons g fs =>
        cases es with
        | nil => exact congrArg (f g :: ·) (ih [] fs)
        | cons e es => exact congrArg (f g :: ·) (ih (e :: es) fs)

namespace Pair

/-- A call that has returned takes no more steps. -/
theorem turns_returned_first {c : Pair σ ε α β} {a : α} (h : c.first = .pure a)
    (sides : List Side) : (c.turns apply sides).first = .pure a := by
  induction sides generalizing c with
  | nil => exact h
  | cons side sides ih =>
    refine ih ?_
    cases side with
    | first =>
      rw [turn, h]
      exact h
    | second =>
      rw [turn]
      split <;> exact h

theorem turns_returned_second {c : Pair σ ε α β} {b : β} (h : c.second = .pure b)
    (sides : List Side) : (c.turns apply sides).second = .pure b := by
  induction sides generalizing c with
  | nil => exact h
  | cons side sides ih =>
    refine ih ?_
    cases side with
    | first =>
      rw [turn]
      split <;> exact h
    | second =>
      rw [turn, h]
      exact h

/-- Two calls whose steps are statements, with turns enough for both: either all statements
succeed and have their effects in the order of the schedule, or one call ends with an error. -/
theorem turns_statements (sides : List Side) : ∀ (es fs : List ε) (s : σ),
    es.length ≤ sides.count .first → fs.length ≤ sides.count .second →
    (Succeeds check apply s (merged es fs sides) ∧
      (⟨statements check es, statements check fs, s⟩ : Pair σ ε _ _).turns apply sides =
        ⟨.pure (.ok ()), .pure (.ok ()),
          (merged es fs sides).foldl (fun s e => apply e s) s⟩) ∨
    (¬Succeeds check apply s (merged es fs sides) ∧
      ((∃ x, ((⟨statements check es, statements check fs, s⟩ : Pair σ ε _ _).turns apply
        sides).first = .pure (.error x)) ∨
      ∃ x, ((⟨statements check es, statements check fs, s⟩ : Pair σ ε _ _).turns apply
        sides).second = .pure (.error x))) := by
  induction sides with
  | nil =>
    intro es fs s hes hfs
    obtain rfl := List.length_eq_zero_iff.mp (Nat.le_zero.mp hes)
    obtain rfl := List.length_eq_zero_iff.mp (Nat.le_zero.mp hfs)
    exact .inl ⟨trivial, rfl⟩
  | cons side sides ih =>
    intro es fs s hes hfs
    cases side with
    | first =>
      rw [List.count_cons_self] at hes
      rw [List.count_cons_of_ne (by decide)] at hfs
      cases es with
      | nil => exact ih [] fs s (Nat.zero_le _) hfs
      | cons e es =>
        rw [turns, turn, merged, Succeeds]
        dsimp only [statements]
        cases hcheck : check e s with
        | ok u =>
          dsimp only
          rw [List.foldl_cons]
          rcases ih es fs (apply e s) (Nat.le_of_succ_le_succ hes) hfs with ⟨h, hc⟩ | ⟨h, hc⟩
          · exact .inl ⟨⟨rfl, h⟩, hc⟩
          · exact .inr ⟨fun hall => h hall.2, hc⟩
        | error x =>
          exact .inr ⟨fun hall => (nomatch hall.1), .inl ⟨x, turns_returned_first rfl sides⟩⟩
    | second =>
      rw [List.count_cons_of_ne (by decide)] at hes
      rw [List.count_cons_self] at hfs
      cases fs with
      | nil =>
        have hmerged : merged es [] (.second :: sides) = merged es [] sides := by
          cases es <;> rfl
        rw [hmerged]
        exact ih es [] s hes (Nat.zero_le _)
      | cons f fs =>
        have hmerged : merged es (f :: fs) (.second :: sides) = f :: merged es fs sides := by
          cases es <;> rfl
        rw [turns, turn, hmerged, Succeeds]
        dsimp only [statements]
        cases hcheck : check f s with
        | ok u =>
          dsimp only
          rw [List.foldl_cons]
          rcases ih es fs (apply f s) hes (Nat.le_of_succ_le_succ hfs) with ⟨h, hc⟩ | ⟨h, hc⟩
          · exact .inl ⟨⟨rfl, h⟩, hc⟩
          · exact .inr ⟨fun hall => h hall.2, hc⟩
        | error x =>
          exact .inr ⟨fun hall => (nomatch hall.1), .inr ⟨x, turns_returned_second rfl sides⟩⟩

end Pair

end Statements

end Programs

end Interleaving
