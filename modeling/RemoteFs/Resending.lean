import Mathlib.Data.List.Basic

/-! # A request that is sent again when it or its answer is lost

Every copy that arrives is executed, also one whose answer does not come back. An answer that is
transient is treated like a lost one while there are attempts left. -/
namespace Resending

inductive Fate where
  | requestLost
  | responseLost
  | answered
  deriving DecidableEq, Repr

variable {σ μ α ε : Type}

/-- The answer of the last attempt if it had one, and the states after the executed copies. -/
structure Sent (σ α ε : Type) where
  answer : Option (Except ε α)
  states : List σ
  state : σ

def Sent.after (s : σ) (r : Sent σ α ε) : Sent σ α ε := { r with states := s :: r.states }

def send (execute : μ → σ → Except ε α × σ) (transient : ε → Bool) :
    List (Fate × μ) → σ → Sent σ α ε
  | [], s => ⟨none, [], s⟩
  | (.requestLost, _) :: rest, s => send execute transient rest s
  | (.responseLost, m) :: rest, s =>
    (send execute transient rest (execute m s).2).after (execute m s).2
  | (.answered, m) :: rest, s =>
    match execute m s with
    | (.ok a, s') => ⟨some (.ok a), [s'], s'⟩
    | (.error e, s') =>
      if transient e ∧ rest ≠ [] then (send execute transient rest s').after s'
      else ⟨some (.error e), [s'], s'⟩

def arriving (attempts : List (Fate × μ)) : List Fate :=
  (attempts.map Prod.fst).filter (· ≠ .requestLost)

/-- The answer to the first copy is lost, and that to a later one comes back. -/
def Ambiguous (attempts : List (Fate × μ)) : Prop :=
  ∃ rest, arriving attempts = .responseLost :: rest ∧ .answered ∈ rest

def Heard (attempts : List (Fate × μ)) : Prop := .answered ∈ arriving attempts

/-- The answer to a copy after the first one comes back, or that to the first one does in the
last attempt. -/
def HeardAgain : List (Fate × μ) → Prop
  | [] => False
  | (.requestLost, _) :: rest => HeardAgain rest
  | (.responseLost, _) :: rest => Heard rest
  | (.answered, _) :: rest => Heard rest ∨ rest = []

def HeardLast : List (Fate × μ) → Prop
  | [] => False
  | [(fate, _)] => fate = .answered
  | _ :: attempt :: rest => HeardLast (attempt :: rest)

/-- A call with success has taken effect once, and after one with an error no copy has changed
the state. -/
structure Faithful (execute : μ → σ → Except ε α × σ) (alike unchanged : σ → σ → Prop)
    (s : σ) (r : Sent σ α ε) : Prop where
  ok : ∀ a, r.answer = some (.ok a) →
    ∃ m b, (execute m s).1 = .ok b ∧ alike (execute m s).2 r.state
  error : ∀ e, r.answer = some (.error e) → ∀ s' ∈ r.states, unchanged s s'

variable {execute : μ → σ → Except ε α × σ} {transient : ε → Bool}
variable {alike unchanged : σ → σ → Prop} {s s' : σ} {attempts : List (Fate × μ)}

def Refuses (execute : μ → σ → Except ε α × σ) (s : σ) : Prop :=
  ∀ m, ∃ e, execute m s = (.error e, s)

def RefusesFinally (execute : μ → σ → Except ε α × σ) (transient : ε → Bool) (s : σ) : Prop :=
  ∀ m, ∃ e, execute m s = (.error e, s) ∧ transient e = false

theorem heard_cons_responseLost {m : μ} :
    Heard ((.responseLost, m) :: attempts) ↔ Heard attempts := by
  unfold Heard arriving
  rw [List.map_cons, List.filter_cons_of_pos (by rfl), List.mem_cons]
  exact or_iff_right nofun

theorem heard_cons_answered {m : μ} : Heard ((.answered, m) :: attempts) :=
  List.mem_cons_self

theorem ambiguous_cons_responseLost {m : μ} :
    Ambiguous ((.responseLost, m) :: attempts) ↔ Heard attempts := by
  constructor
  · rintro ⟨rest, heq, hmem⟩
    obtain rfl := (List.cons.inj heq).2
    exact hmem
  · exact fun h => ⟨_, rfl, h⟩

theorem not_ambiguous_answered {m : μ} : ¬Ambiguous ((.answered, m) :: attempts) := by
  rintro ⟨rest, heq, -⟩
  cases (List.cons.inj heq).1

theorem send_refused (refused : σ → Prop)
    (h : ∀ m s, refused s → ∃ e s', execute m s = (.error e, s') ∧ refused s') (hs : refused s) :
    (∀ a, (send execute transient attempts s).answer ≠ some (.ok a)) ∧
      ∀ s' ∈ (send execute transient attempts s).states, refused s' := by
  induction attempts generalizing s with
  | nil => exact ⟨nofun, nofun⟩
  | cons attempt rest ih =>
    obtain ⟨fate, m⟩ := attempt
    obtain ⟨e, s', he, hs'⟩ := h m s hs
    have hagain : ∀ r, r = (send execute transient rest s').after s' →
        (∀ a, r.answer ≠ some (.ok a)) ∧ ∀ s' ∈ r.states, refused s' := by
      rintro _ rfl
      refine ⟨(ih hs').1, fun k hk => ?_⟩
      rcases List.mem_cons.mp hk with rfl | hk
      · exact hs'
      · exact (ih hs').2 k hk
    cases fate with
    | requestLost => exact ih hs
    | responseLost =>
      refine hagain _ ?_
      rw [send, he]
    | answered =>
      rw [send, he]
      dsimp only
      split
      · exact hagain _ rfl
      · refine ⟨nofun, fun k hk => ?_⟩
        obtain rfl := List.mem_singleton.mp hk
        exact hs'

/-- A client of a state that refuses finally gets its refusal exactly if it hears from it. -/
theorem send_refusedFinally (h : RefusesFinally execute transient s) :
    (∃ e, (send execute transient attempts s).answer = some (.error e)) ↔ Heard attempts := by
  induction attempts with
  | nil => exact iff_of_false nofun nofun
  | cons attempt rest ih =>
    obtain ⟨fate, m⟩ := attempt
    obtain ⟨e, he, hfinal⟩ := h m
    cases fate with
    | requestLost => exact ih
    | responseLost =>
      rw [heard_cons_responseLost, send, he]
      exact ih
    | answered =>
      rw [send, he]
      dsimp only
      rw [if_neg (by simp [hfinal])]
      exact iff_of_true ⟨e, rfl⟩ heard_cons_answered

theorem send_refusedWith {e : ε} (h : ∀ m, execute m s = (.error e, s))
    (hfinal : transient e = false) :
    (send execute transient attempts s).state = s ∧
      ∀ a, (send execute transient attempts s).answer = some a ↔
        a = .error e ∧ Heard attempts := by
  induction attempts with
  | nil =>
    refine ⟨rfl, fun a => ⟨nofun, ?_⟩⟩
    rintro ⟨-, hheard⟩
    cases hheard
  | cons attempt rest ih =>
    obtain ⟨fate, m⟩ := attempt
    cases fate with
    | requestLost => exact ih
    | responseLost =>
      simp only [send, h, heard_cons_responseLost]
      exact ih
    | answered =>
      simp only [send, h, hfinal, Bool.false_eq_true, false_and, if_false]
      simp only [heard_cons_answered, and_true, true_and, Option.some.injEq]
      exact fun a => eq_comm

theorem send_unheard (h : ¬Heard attempts) : (send execute transient attempts s).answer = none := by
  induction attempts generalizing s with
  | nil => rfl
  | cons attempt rest ih =>
    obtain ⟨fate, m⟩ := attempt
    cases fate with
    | requestLost => exact ih h
    | responseLost => exact ih (mt heard_cons_responseLost.mpr h)
    | answered => exact (h heard_cons_answered).elim

theorem faithful_unheard (h : ¬Heard attempts) :
    Faithful execute alike unchanged s (send execute transient attempts s) := by
  constructor
  · intro a ha
    rw [send_unheard h] at ha
    cases ha
  · intro e he
    rw [send_unheard h] at he
    cases he

/-- Where every copy is refused, and the states that refuse count as unchanged. -/
theorem faithful_refused (refused : σ → Prop)
    (h : ∀ m s, refused s → ∃ e s', execute m s = (.error e, s') ∧ refused s') (hs : refused s)
    (hsame : ∀ s', refused s' → unchanged s s') :
    Faithful execute alike unchanged s (send execute transient attempts s) :=
  ⟨fun a ha => ((send_refused refused h hs).1 a ha).elim,
    fun _ _ s' hs' => hsame s' ((send_refused refused h hs).2 s' hs')⟩

theorem Refuses.faithful (h : Refuses execute s) (hrefl : unchanged s s) :
    Faithful execute alike unchanged s (send execute transient attempts s) := by
  refine faithful_refused (· = s) ?_ rfl fun s' hs' => hs' ▸ hrefl
  rintro m _ rfl
  obtain ⟨e, he⟩ := h m
  exact ⟨e, _, he, rfl⟩

/-- Where the first copy succeeds, its answer settles the call. -/
theorem faithful_not_ambiguous (halike : ∀ s, alike s s)
    (h : ∀ m, ∃ a, (execute m s).1 = .ok a) (hno : ¬Ambiguous attempts) :
    Faithful execute alike unchanged s (send execute transient attempts s) := by
  induction attempts with
  | nil => exact faithful_unheard nofun
  | cons attempt rest ih =>
    obtain ⟨fate, m⟩ := attempt
    cases fate with
    | requestLost => exact ih hno
    | responseLost =>
      refine faithful_unheard fun hheard => ?_
      exact hno (ambiguous_cons_responseLost.mpr (heard_cons_responseLost.mp hheard))
    | answered =>
      obtain ⟨a, ha⟩ := h m
      obtain ⟨s', hs'⟩ : ∃ s', execute m s = (.ok a, s') := ⟨_, Prod.ext ha rfl⟩
      rw [send, hs']
      refine ⟨fun _ _ => ⟨m, a, ha, ?_⟩, nofun⟩
      rw [hs']
      exact halike s'

/-- A copy that succeeds and after which all are finally refused. -/
theorem faithful_once_iff (halike : ∀ s, alike s s)
    (h : ∀ m, ∃ a s', execute m s = (.ok a, s') ∧ ¬unchanged s s' ∧
      RefusesFinally execute transient s') :
    Faithful execute alike unchanged s (send execute transient attempts s) ↔
      ¬Ambiguous attempts := by
  constructor
  · induction attempts with
    | nil =>
      rintro - ⟨rest, heq, -⟩
      cases heq
    | cons attempt rest ih =>
      obtain ⟨fate, m⟩ := attempt
      cases fate with
      | requestLost => exact ih
      | responseLost =>
        rw [ambiguous_cons_responseLost]
        intro hf hheard
        obtain ⟨a, s', hs', hchanged, hagain⟩ := h m
        obtain ⟨e, he⟩ := (send_refusedFinally hagain).mpr hheard
        rw [send, hs'] at hf
        exact hchanged (hf.error e he s' List.mem_cons_self)
      | answered => exact fun _ => not_ambiguous_answered
  · refine faithful_not_ambiguous halike fun m => ?_
    obtain ⟨a, s', hs', -⟩ := h m
    exact ⟨a, by rw [hs']⟩

theorem faithful_half_iff
    (h : ∀ m, ∃ e s', execute m s = (.error e, s') ∧ transient e = true ∧ ¬unchanged s s' ∧
      RefusesFinally execute transient s') :
    Faithful execute alike unchanged s (send execute transient attempts s) ↔
      ¬HeardAgain attempts := by
  induction attempts with
  | nil => exact iff_of_true (faithful_unheard nofun) nofun
  | cons attempt rest ih =>
    obtain ⟨fate, m⟩ := attempt
    obtain ⟨e, s', hs', htransient, hchanged, hagain⟩ := h m
    have hlater : Faithful execute alike unchanged s
        ((send execute transient rest s').after s') ↔ ¬Heard rest := by
      constructor
      · intro hf hheard
        obtain ⟨e', he'⟩ := (send_refusedFinally hagain).mpr hheard
        exact hchanged (hf.error e' he' s' List.mem_cons_self)
      · intro hno
        refine ⟨fun a ha => ?_, fun e' he' => ?_⟩
        · cases (send_unheard hno).symm.trans ha
        · cases (send_unheard hno).symm.trans he'
    cases fate with
    | requestLost => exact ih
    | responseLost =>
      rw [send, hs']
      exact hlater
    | answered =>
      rw [send, hs', HeardAgain, not_or]
      dsimp only
      by_cases hrest : rest = []
      · rw [if_neg fun h => h.2 hrest]
        refine iff_of_false (fun hf => ?_) fun hno => hno.2 hrest
        exact hchanged (hf.error e rfl s' List.mem_cons_self)
      · rw [if_pos ⟨htransient, hrest⟩, hlater]
        exact (and_iff_left hrest).symm

theorem heardLast_cons {attempt : Fate × μ} (h : attempts ≠ []) :
    HeardLast (attempt :: attempts) ↔ HeardLast attempts := by
  obtain ⟨next, rest, rfl⟩ := List.exists_cons_of_ne_nil h
  rfl

theorem send_refusedForNow
    (h : ∀ m, ∃ e, execute m s = (.error e, s) ∧ transient e = true) :
    (∃ e, (send execute transient attempts s).answer = some (.error e)) ↔ HeardLast attempts := by
  induction attempts with
  | nil => exact iff_of_false nofun nofun
  | cons attempt rest ih =>
    obtain ⟨fate, m⟩ := attempt
    obtain ⟨e, he, htransient⟩ := h m
    by_cases hrest : rest = []
    · subst hrest
      cases fate with
      | requestLost => exact iff_of_false nofun nofun
      | responseLost => exact iff_of_false nofun nofun
      | answered =>
        rw [send, he]
        dsimp only
        rw [if_neg fun hmore => hmore.2 rfl]
        exact iff_of_true ⟨e, rfl⟩ rfl
    · rw [heardLast_cons hrest, ← ih]
      cases fate with
      | requestLost => rfl
      | responseLost =>
        rw [send, he]
        rfl
      | answered =>
        rw [send, he]
        dsimp only
        rw [if_pos ⟨htransient, hrest⟩]
        rfl

theorem faithful_stuck_iff
    (h : ∀ m, ∃ e s', execute m s = (.error e, s') ∧ transient e = true ∧ ¬unchanged s s' ∧
      ∀ m, ∃ e, execute m s' = (.error e, s') ∧ transient e = true) :
    Faithful execute alike unchanged s (send execute transient attempts s) ↔
      ¬HeardLast attempts := by
  induction attempts with
  | nil => exact iff_of_true (faithful_unheard nofun) nofun
  | cons attempt rest ih =>
    obtain ⟨fate, m⟩ := attempt
    obtain ⟨e, s', hs', htransient, hchanged, hagain⟩ := h m
    by_cases hrest : rest = []
    · subst hrest
      cases fate with
      | requestLost => exact iff_of_true (faithful_unheard nofun) nofun
      | responseLost => exact iff_of_true (faithful_unheard nofun) nofun
      | answered =>
        rw [send, hs']
        dsimp only
        rw [if_neg fun hmore => hmore.2 rfl]
        refine iff_of_false (fun hf => ?_) fun hno => hno rfl
        exact hchanged (hf.error e rfl s' List.mem_cons_self)
    rw [heardLast_cons hrest]
    have hlater : Faithful execute alike unchanged s
        ((send execute transient rest s').after s') ↔ ¬HeardLast rest := by
      rw [← send_refusedForNow hagain]
      constructor
      · rintro hf ⟨e', he'⟩
        exact hchanged (hf.error e' he' s' List.mem_cons_self)
      · intro hno
        refine ⟨fun a ha => ?_, fun e' he' => (hno ⟨e', he'⟩).elim⟩
        refine ((send_refused (· = s') ?_ rfl).1 a ha).elim
        rintro m _ rfl
        obtain ⟨e', he', -⟩ := hagain m
        exact ⟨e', _, he', rfl⟩
    cases fate with
    | requestLost => exact ih
    | responseLost =>
      rw [send, hs']
      exact hlater
    | answered =>
      rw [send, hs']
      dsimp only
      rw [if_pos ⟨htransient, hrest⟩]
      exact hlater

theorem faithful_settled (done : σ → Prop) (halike : ∀ s, alike s s)
    (htrans : ∀ s₁ s₂ s₃, alike s₁ s₂ → alike s₂ s₃ → alike s₁ s₃)
    (hstay : ∀ m s, done s → ∃ a s', execute m s = (.ok a, s') ∧ done s' ∧ alike s s')
    (h : ∀ m, ∃ a s', execute m s = (.ok a, s') ∧ done s') :
    Faithful execute alike unchanged s (send execute transient attempts s) := by
  have hrest : ∀ (rest : List (Fate × μ)) s, done s →
      (∀ e, (send execute transient rest s).answer ≠ some (.error e)) ∧
        alike s (send execute transient rest s).state := by
    intro rest
    induction rest with
    | nil => exact fun s _ => ⟨nofun, halike s⟩
    | cons attempt rest ih =>
      intro s hs
      obtain ⟨fate, m⟩ := attempt
      obtain ⟨a, s', he, hdone, hsame⟩ := hstay m s hs
      cases fate with
      | requestLost => exact ih s hs
      | responseLost =>
        rw [send, he]
        exact ⟨(ih s' hdone).1, htrans _ _ _ hsame (ih s' hdone).2⟩
      | answered =>
        rw [send, he]
        exact ⟨nofun, hsame⟩
  induction attempts with
  | nil => exact faithful_unheard nofun
  | cons attempt rest ih =>
    obtain ⟨fate, m⟩ := attempt
    obtain ⟨a, s', he, hdone⟩ := h m
    have hok : (execute m s).1 = .ok a := by rw [he]
    cases fate with
    | requestLost => exact ih
    | responseLost =>
      rw [send, he]
      refine ⟨fun _ _ => ⟨m, a, hok, ?_⟩, fun e he' => ?_⟩
      · rw [he]
        exact (hrest rest s' hdone).2
      · exact ((hrest rest s' hdone).1 e he').elim
    | answered =>
      rw [send, he]
      refine ⟨fun _ _ => ⟨m, a, hok, ?_⟩, nofun⟩
      rw [he]
      exact halike s'

end Resending
