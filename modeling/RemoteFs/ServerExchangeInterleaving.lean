import RemoteFs.Interleaving
import RemoteFs.ServerXattributeMoves
import Mathlib.Logic.Equiv.Basic

/-! # Two exchanges of attributes at the same time

Every statement gives the rows of one path to another, so a run of them carries each path to the
path that holds its rows in the end. Both exchanges park rows at one temporary path; the one that
comes to its last statement first takes all that is there. -/
namespace ServerExchangeInterleaving

open SqlTable
open Interleaving
open ServerDatabase
open ServerXattributes
open ServerXattributeMoves

/-- `UPDATE xattributes SET path = newPath WHERE path = path`, over any kind of paths. -/
structure Statement (P : Type) where
  newPath : P
  path : P
  deriving DecidableEq, Repr

def exchangeStatements {P : Type} (tmp path1 path2 : P) : List (Statement P) :=
  [⟨tmp, path1⟩, ⟨path1, path2⟩, ⟨path2, tmp⟩]

def check (m : Statement String) (t : Xattributes) : Except DatabaseError Unit :=
  (updatePath t m.newPath m.path).1

def apply (m : Statement String) (t : Xattributes) : Xattributes :=
  (updatePath t m.newPath m.path).2

def exchangeSteps (path1 path2 : String) :
    Program Xattributes (Statement String) (Except DatabaseError Unit) :=
  statements check (exchangeStatements tmpExchange path1 path2)

theorem statements_run (m : Statement String) (ms : List (Statement String)) (t : Xattributes) :
    (statements check (m :: ms)).run apply t =
      match updatePath t m.newPath m.path with
      | (.error e, t') => (.error e, t')
      | (.ok (), t') => (statements check ms).run apply t' := by
  rw [statements, Program.run, check, apply]
  obtain ⟨res, t'⟩ := updatePath t m.newPath m.path
  cases res <;> rfl

/-- Without another call the statements are the exchange. -/
theorem exchangeSteps_run (path1 path2 : String) (t : Xattributes) :
    (exchangeSteps path1 path2).run apply t = exchangeXAttributes t path1 path2 := by
  unfold exchangeSteps exchangeStatements exchangeXAttributes
  rw [statements_run]
  obtain ⟨res₁, t₁⟩ := updatePath t tmpExchange path1
  cases res₁ with
  | error e => rfl
  | ok u₁ =>
    dsimp only
    rw [statements_run]
    obtain ⟨res₂, t₂⟩ := updatePath t₁ path1 path2
    cases res₂ with
    | error e => rfl
    | ok u₂ =>
      dsimp only
      rw [statements_run]
      obtain ⟨res₃, t₃⟩ := updatePath t₂ path2 tmpExchange
      cases res₃ <;> rfl

section Carrying

variable {P Q : Type} [DecidableEq P] [DecidableEq Q]

def carry (ms : List (Statement P)) (p : P) : P :=
  ms.foldl (fun p m => if p = m.path then m.newPath else p) p

def Statement.map (f : P → Q) (m : Statement P) : Statement Q := ⟨f m.newPath, f m.path⟩

theorem carry_map {f : P → Q} (hf : Function.Injective f) (ms : List (Statement P)) (p : P) :
    carry (ms.map (Statement.map f)) (f p) = f (carry ms p) := by
  induction ms generalizing p with
  | nil => rfl
  | cons m ms ih =>
    unfold carry at ih ⊢
    rw [List.map_cons, List.foldl_cons, List.foldl_cons, ← ih]
    congr 1
    simp only [Statement.map, hf.eq_iff]
    split <;> rfl

/-- A path that no statement names keeps its rows. -/
theorem carry_other {ms : List (Statement P)} {p : P} (h : ∀ m ∈ ms, m.path ≠ p) :
    carry ms p = p := by
  induction ms with
  | nil => rfl
  | cons m ms ih =>
    unfold carry at ih ⊢
    rw [List.foldl_cons, if_neg fun he => h m List.mem_cons_self he.symm]
    exact ih fun m hm => h m (List.mem_cons_of_mem _ hm)

end Carrying

section Tables

variable {t t' : Xattributes} {ms : List (Statement String)} {p : String}

def Carried (t t' : Xattributes) (f : String → String) : Prop :=
  t'.rows = t.rows.map fun r => { r with path := f r.path }

theorem carried_step {m : Statement String} (h : check m t = .ok ()) :
    Carried t (apply m t) fun p => if p = m.path then m.newPath else p := by
  obtain ⟨t', ht', hrows⟩ := updatePath_rows (updatePath_ok h)
  rw [apply, ht', Carried, hrows]
  refine List.map_congr_left fun r _ => ?_
  by_cases hp : r.path = m.path
  · rw [if_pos (atPath_iff.mpr hp), if_pos hp]
  · rw [if_neg (mt atPath_iff.mp hp), if_neg hp]

theorem carried_of_succeeds (h : Succeeds check apply t ms) :
    Carried t (ms.foldl (fun t m => apply m t) t) (carry ms) := by
  induction ms generalizing t with
  | nil => exact (List.map_id _).symm
  | cons m ms ih =>
    obtain ⟨hm, hrest⟩ := h
    have hstep := carried_step hm
    have hcarried := ih hrest
    unfold Carried at hstep hcarried ⊢
    rw [List.foldl_cons, hcarried, hstep, List.map_map]
    rfl

/-- Where the statements never bring the rows of two paths together, none fails. -/
theorem succeeds_of_apart (h : ∀ k ≤ ms.length, ∀ p q, Held t p → Held t q →
      carry (ms.take k) p = carry (ms.take k) q → p = q) :
    Succeeds check apply t ms := by
  induction ms generalizing t with
  | nil => trivial
  | cons m ms ih =>
    have hclash : ¬Clash (attrs t) m.path m.newPath := by
      rintro ⟨hne, name, hold, hnew⟩
      obtain ⟨r, hr, hrp, -⟩ := attrs_ne_none.mp hold
      obtain ⟨r', hr', hrp', -⟩ := attrs_ne_none.mp hnew
      refine hne (h 1 (Nat.succ_pos _) _ _ ⟨r, hr, hrp⟩ ⟨r', hr', hrp'⟩ ?_)
      change (if m.path = m.path then m.newPath else m.path) =
        if m.newPath = m.path then m.newPath else m.newPath
      rw [if_pos rfl, ite_self]
    have hcheck : check m t = .ok () := by
      obtain ⟨t', ht', -⟩ := updatePath_rows hclash
      rw [check, ht']
    have hstep := carried_step hcheck
    refine ⟨hcheck, ih fun k hk p q hp hq heq => ?_⟩
    obtain ⟨r, hr, rfl⟩ := hp
    obtain ⟨r', hr', rfl⟩ := hq
    rw [hstep, List.mem_map] at hr hr'
    obtain ⟨s, hs, rfl⟩ := hr
    obtain ⟨s', hs', rfl⟩ := hr'
    have hsame := h (k + 1) (Nat.succ_le_succ hk) s.path s'.path ⟨s, hs, rfl⟩ ⟨s', hs', rfl⟩ heq
    dsimp only
    rw [hsame]

theorem attrs_carried {f : String → String} (h : Carried t t' f) {name : String}
    {v : List UInt8} :
    attrs t' p name = some v ↔ ∃ q, f q = p ∧ attrs t q name = some v := by
  rw [attrs_eq_some, h, List.mem_map]
  constructor
  · rintro ⟨r, hr, he⟩
    injection he with hp hn hv
    refine ⟨r.path, hp, attrs_eq_some.mpr ?_⟩
    rwa [← hn, ← hv]
  · rintro ⟨q, rfl, hq⟩
    exact ⟨_, attrs_eq_some.mp hq, rfl⟩

end Tables

/-! The paths of the two calls, and what a schedule does to each -/

inductive Place where
  | tmp
  | one (side : Side)
  | two (side : Side)
  deriving DecidableEq, Repr

def places : List Place := [.tmp, .one .first, .two .first, .one .second, .two .second]

theorem mem_places (x : Place) : x ∈ places := by
  cases x with
  | tmp => decide
  | one side => cases side <;> decide
  | two side => cases side <;> decide

def Place.swapped : Place → Place
  | .tmp => .tmp
  | .one side => .two side
  | .two side => .one side

def order (sides : List Side) : List (Statement Place) :=
  merged (exchangeStatements .tmp (.one .first) (.two .first))
    (exchangeStatements .tmp (.one .second) (.two .second)) sides

def Sequential (sides : List Side) : Prop :=
  sides.take 3 = List.replicate 3 .first ∨ sides.take 3 = List.replicate 3 .second

instance (sides : List Side) : Decidable (Sequential sides) := inferInstanceAs (Decidable (_ ∨ _))

/-- The places of `own` go where the exchanges take them, and never two to one. -/
def Orderly (own : List Place) (ms : List (Statement Place)) : Prop :=
  (∀ k ∈ List.range 7, (own.map (carry (ms.take k))).Nodup) ∧
    own.map (carry ms) = own.map Place.swapped

instance (own : List Place) (ms : List (Statement Place)) : Decidable (Orderly own ms) :=
  inferInstanceAs (Decidable (_ ∧ _))

def others (side : Side) : List Place := (places.erase .tmp).erase (.one side)

/-- What a schedule does to the places. With calls in a row both exchanges come out. Where they
overlap, the rows of the first path of the call that is over last end with the other call. -/
def Outcome (sides : List Side) (last : Side) : Prop :=
  (order sides).length = 6 ∧ Orderly (others last) (order sides) ∧
    (Sequential sides → Orderly (places.erase .tmp) (order sides)) ∧
    (¬Sequential sides → .two last ∉ (places.erase .tmp).map (carry (order sides)))

instance (sides : List Side) (last : Side) : Decidable (Outcome sides last) :=
  inferInstanceAs (Decidable (_ ∧ _ ∧ _ ∧ _))

theorem length_eq_counts (sides : List Side) :
    sides.length = sides.count .first + sides.count .second := by
  induction sides with
  | nil => rfl
  | cons side sides ih =>
    cases side with
    | first =>
      rw [List.length_cons, List.count_cons_self, List.count_cons_of_ne (by decide), ih]
      omega
    | second =>
      rw [List.length_cons, List.count_cons_self, List.count_cons_of_ne (by decide), ih]
      omega

theorem outcome_of_counts {sides : List Side} (hfirst : sides.count .first = 3)
    (hsecond : sides.count .second = 3) {last : Side} (hlast : sides.getLast? = some last) :
    Outcome sides last := by
  have hside : ∀ side : Side, side ∈ [Side.first, .second] := fun side => by
    cases side <;> decide
  have hall : ∀ a ∈ [Side.first, .second], ∀ b ∈ [Side.first, .second],
      ∀ c ∈ [Side.first, .second], ∀ d ∈ [Side.first, .second], ∀ e ∈ [Side.first, .second],
      ∀ f ∈ [Side.first, .second], [a, b, c, d, e, f].count .first = 3 →
        [a, b, c, d, e, f].count .second = 3 → Outcome [a, b, c, d, e, f] f := by decide
  have hlength := length_eq_counts sides
  rw [hfirst, hsecond] at hlength
  match sides, hlength with
  | [a, b, c, d, e, f], _ =>
    obtain rfl := Option.some.inj hlast
    exact hall a (hside a) b (hside b) c (hside c) d (hside d) e (hside e) f (hside f) hfirst
      hsecond

section Calls

structure Paths where
  one : Side → String
  two : Side → String
  distinct : [tmpExchange, one .first, two .first, one .second, two .second].Nodup

namespace Paths

variable (paths : Paths)

def path : Place → String
  | .tmp => tmpExchange
  | .one side => paths.one side
  | .two side => paths.two side

theorem path_injective : Function.Injective paths.path := by
  have hnodup : (places.map paths.path).Nodup := paths.distinct
  intro x y heq
  exact List.inj_on_of_nodup_map hnodup (mem_places x) (mem_places y) heq

def start (t : Xattributes) : Pair Xattributes (Statement String) (Except DatabaseError Unit)
    (Except DatabaseError Unit) :=
  ⟨exchangeSteps (paths.one .first) (paths.two .first),
    exchangeSteps (paths.one .second) (paths.two .second), t⟩

/-- Both calls succeed, each pair of paths has its attributes swapped, and all other paths have
theirs; the temporary path has none. -/
structure Unmixed (t : Xattributes) (c : Pair Xattributes (Statement String)
    (Except DatabaseError Unit) (Except DatabaseError Unit)) : Prop where
  first : c.first = .pure (.ok ())
  second : c.second = .pure (.ok ())
  swapped : ∀ p, attrs c.state p =
    attrs t (Equiv.swap (paths.one .first) (paths.two .first)
      (Equiv.swap (paths.one .second) (paths.two .second) p))
  parked : ¬Held c.state tmpExchange

variable {paths} {t : Xattributes} {sides : List Side} {x : Place} {p : String}

theorem merged_path : merged
    (exchangeStatements tmpExchange (paths.one .first) (paths.two .first))
    (exchangeStatements tmpExchange (paths.one .second) (paths.two .second)) sides =
      (order sides).map (Statement.map paths.path) :=
  merged_map (Statement.map paths.path) (exchangeStatements .tmp (.one .first) (.two .first))
    (exchangeStatements .tmp (.one .second) (.two .second)) sides

/-- A path with attributes is one of the calls' or stays out of it. -/
theorem path_cases (paths : Paths) (htmp : ¬Held t tmpExchange) (hp : Held t p) :
    (∃ x ∈ places.erase .tmp, paths.path x = p) ∨ ∀ x, paths.path x ≠ p := by
  by_cases h : ∃ x, paths.path x = p
  · obtain ⟨x, rfl⟩ := h
    refine .inl ⟨x, (List.mem_erase_of_ne ?_).mpr (mem_places x), rfl⟩
    rintro rfl
    exact htmp hp
  · exact .inr fun x hx => h ⟨x, hx⟩

theorem carry_path (ms : List (Statement Place)) (x : Place) :
    carry (ms.map (Statement.map paths.path)) (paths.path x) = paths.path (carry ms x) :=
  carry_map paths.path_injective ms x

theorem carry_outside (ms : List (Statement Place)) (hp : ∀ x, paths.path x ≠ p) :
    carry (ms.map (Statement.map paths.path)) p = p := by
  refine carry_other fun m hm => ?_
  obtain ⟨m, -, rfl⟩ := List.mem_map.mp hm
  exact hp m.path

theorem succeeds_of_orderly {own : List Place} {ms : List (Statement Place)}
    (hlength : ms.length = 6) (h : Orderly own ms)
    (hown : ∀ p, Held t p → (∃ x ∈ own, paths.path x = p) ∨ ∀ x, paths.path x ≠ p) :
    Succeeds check apply t (ms.map (Statement.map paths.path)) := by
  refine succeeds_of_apart fun k hk p q hp hq heq => ?_
  rw [List.length_map, hlength] at hk
  have hnodup := h.1 k (List.mem_range.mpr (Nat.lt_succ_of_le hk))
  rw [← List.map_take] at heq
  rcases hown p hp with ⟨x, hx, rfl⟩ | hp
  · rw [carry_path] at heq
    rcases hown q hq with ⟨y, hy, rfl⟩ | hq
    · rw [carry_path] at heq
      rw [List.inj_on_of_nodup_map hnodup hx hy (paths.path_injective heq)]
    · rw [carry_outside _ hq] at heq
      exact (hq _ heq).elim
  · rw [carry_outside _ hp] at heq
    rcases hown q hq with ⟨y, hy, rfl⟩ | hq
    · rw [carry_path] at heq
      exact (hp _ heq.symm).elim
    · rwa [carry_outside _ hq] at heq

theorem path_swapped (x : Place) : paths.path x.swapped =
    Equiv.swap (paths.one .second) (paths.two .second)
      (Equiv.swap (paths.one .first) (paths.two .first) (paths.path x)) := by
  have hx : x.swapped = Equiv.swap (.one .second) (.two .second)
      (Equiv.swap (.one .first) (.two .first) x) := by
    cases x with
    | tmp => decide
    | one side => cases side <;> decide
    | two side => cases side <;> decide
  rw [hx, paths.path_injective.map_swap, paths.path_injective.map_swap]
  rfl

theorem path_unswapped (x : Place) :
    Equiv.swap (paths.one .first) (paths.two .first)
      (Equiv.swap (paths.one .second) (paths.two .second) (paths.path x.swapped)) =
        paths.path x := by
  rw [path_swapped, Equiv.swap_apply_self, Equiv.swap_apply_self]

theorem swap_outside (hp : ∀ x, paths.path x ≠ p) :
    Equiv.swap (paths.one .second) (paths.two .second)
      (Equiv.swap (paths.one .first) (paths.two .first) p) = p := by
  have hone : ∀ side, p ≠ paths.one side := fun side => (hp (.one side)).symm
  have htwo : ∀ side, p ≠ paths.two side := fun side => (hp (.two side)).symm
  rw [Equiv.swap_apply_of_ne_of_ne (hone .first) (htwo .first),
    Equiv.swap_apply_of_ne_of_ne (hone .second) (htwo .second)]

theorem turns_of_succeeds (hfirst : sides.count .first = 3) (hsecond : sides.count .second = 3)
    (h : Succeeds check apply t ((order sides).map (Statement.map paths.path))) :
    ∃ t', (paths.start t).turns apply sides = ⟨.pure (.ok ()), .pure (.ok ()), t'⟩ ∧
      Carried t t' (carry ((order sides).map (Statement.map paths.path))) := by
  rw [← merged_path] at h ⊢
  rcases Pair.turns_statements sides
      (exchangeStatements tmpExchange (paths.one .first) (paths.two .first))
      (exchangeStatements tmpExchange (paths.one .second) (paths.two .second)) t
      (Nat.le_of_eq hfirst.symm) (Nat.le_of_eq hsecond.symm) with ⟨-, hturns⟩ | ⟨hno, -⟩
  · exact ⟨_, hturns, carried_of_succeeds h⟩
  · exact (hno h).elim

theorem succeeds_of_returned (hfirst : sides.count .first = 3)
    (hsecond : sides.count .second = 3)
    (h₁ : ((paths.start t).turns apply sides).first = .pure (.ok ()))
    (h₂ : ((paths.start t).turns apply sides).second = .pure (.ok ())) :
    Succeeds check apply t ((order sides).map (Statement.map paths.path)) := by
  rw [← merged_path]
  rcases Pair.turns_statements sides
      (exchangeStatements tmpExchange (paths.one .first) (paths.two .first))
      (exchangeStatements tmpExchange (paths.one .second) (paths.two .second)) t
      (Nat.le_of_eq hfirst.symm) (Nat.le_of_eq hsecond.symm) with ⟨h, -⟩ | ⟨-, ⟨e, he⟩ | ⟨e, he⟩⟩
  · exact h
  · cases h₁.symm.trans he
  · cases h₂.symm.trans he

/-- A schedule that is orderly for the places with attributes exchanges both pairs. -/
theorem unmixed_of_orderly {own : List Place} (htmp : ¬Held t tmpExchange)
    (hfirst : sides.count .first = 3) (hsecond : sides.count .second = 3)
    (hlength : (order sides).length = 6) (h : Orderly own (order sides))
    (hown : ∀ p, Held t p → (∃ x ∈ own, paths.path x = p) ∨ ∀ x, paths.path x ≠ p) :
    paths.Unmixed t ((paths.start t).turns apply sides) := by
  obtain ⟨t', hturns, hcarried⟩ :=
    turns_of_succeeds hfirst hsecond (succeeds_of_orderly hlength h hown)
  have hcarry : ∀ q, Held t q → carry ((order sides).map (Statement.map paths.path)) q =
      Equiv.swap (paths.one .second) (paths.two .second)
        (Equiv.swap (paths.one .first) (paths.two .first) q) := by
    intro q hq
    rcases hown q hq with ⟨x, hx, rfl⟩ | hq
    · rw [carry_path, ← path_swapped, List.map_inj_left.mp h.2 x hx]
    · rw [carry_outside _ hq, swap_outside hq]
  have hattrs : ∀ p, attrs t' p = attrs t (Equiv.swap (paths.one .first) (paths.two .first)
      (Equiv.swap (paths.one .second) (paths.two .second) p)) := by
    intro p
    funext name
    refine Option.ext fun v => ?_
    rw [attrs_carried hcarried]
    have hback : ∀ q, Equiv.swap (paths.one .second) (paths.two .second)
        (Equiv.swap (paths.one .first) (paths.two .first) q) = p ↔
          q = Equiv.swap (paths.one .first) (paths.two .first)
            (Equiv.swap (paths.one .second) (paths.two .second) p) := fun q => by
      rw [Equiv.swap_apply_eq_iff, Equiv.swap_apply_eq_iff]
    have hheld : ∀ q, attrs t q name = some v → Held t q := fun q hq =>
      held_iff.mpr ⟨name, by rw [hq]; exact nofun⟩
    constructor
    · rintro ⟨q, hq, hv⟩
      rw [hcarry q (hheld q hv), hback] at hq
      rwa [← hq]
    · intro hv
      exact ⟨_, by rw [hcarry _ (hheld _ hv), hback], hv⟩
  rw [hturns]
  refine ⟨rfl, rfl, hattrs, fun hheld => ?_⟩
  obtain ⟨name, hname⟩ := held_iff.mp hheld
  refine htmp (held_iff.mpr ⟨name, ?_⟩)
  rw [hattrs] at hname
  have hparked : Equiv.swap (paths.one .first) (paths.two .first)
      (Equiv.swap (paths.one .second) (paths.two .second) tmpExchange) = tmpExchange :=
    path_unswapped .tmp
  rwa [hparked] at hname

/-- Rows that the other call takes from the temporary path are missing in the end. -/
theorem mixed {last : Side} (htmp : ¬Held t tmpExchange) (hheld : Held t (paths.one last))
    (hfirst : sides.count .first = 3) (hsecond : sides.count .second = 3)
    (h : .two last ∉ (places.erase .tmp).map (carry (order sides))) :
    ¬paths.Unmixed t ((paths.start t).turns apply sides) := by
  intro hun
  obtain ⟨t', hturns, hcarried⟩ := turns_of_succeeds hfirst hsecond
    (succeeds_of_returned hfirst hsecond hun.first hun.second)
  obtain ⟨name, hname⟩ := held_iff.mp hheld
  obtain ⟨v, hv⟩ := Option.ne_none_iff_exists'.mp hname
  have hmoved : attrs t' (paths.two last) name = some v := by
    have hswapped := congrFun (hun.swapped (paths.two last)) name
    have hback : Equiv.swap (paths.one .first) (paths.two .first)
        (Equiv.swap (paths.one .second) (paths.two .second) (paths.two last)) = paths.one last :=
      path_unswapped (.one last)
    rw [hturns, hback] at hswapped
    exact hswapped.trans hv
  obtain ⟨q, hq, hqv⟩ := (attrs_carried hcarried).mp hmoved
  rcases path_cases paths htmp (held_iff.mpr ⟨name, by rw [hqv]; exact nofun⟩) with
    ⟨x, hx, rfl⟩ | hout
  · rw [carry_path] at hq
    exact h (List.mem_map.mpr ⟨x, hx, paths.path_injective hq⟩)
  · rw [carry_outside _ hout] at hq
    exact hout (.two last) hq.symm

/-- Two exchanges at the same time come out exactly if one is over before the other starts, or the
one that is over last has no attributes at its first path. -/
theorem exchanges_unmixed_iff (paths : Paths) (t : Xattributes) (sides : List Side)
    (htmp : ¬Held t tmpExchange) (hfirst : sides.count .first = 3)
    (hsecond : sides.count .second = 3) :
    paths.Unmixed t ((paths.start t).turns apply sides) ↔
      Sequential sides ∨ ∀ last, sides.getLast? = some last → ¬Held t (paths.one last) := by
  obtain ⟨last, hlast⟩ : ∃ last, sides.getLast? = some last := by
    rw [← Option.ne_none_iff_exists', Ne, List.getLast?_eq_none_iff]
    rintro rfl
    cases hfirst
  obtain ⟨hlength, hothers, hrow, hoverlap⟩ := outcome_of_counts hfirst hsecond hlast
  constructor
  · intro hun
    by_cases hseq : Sequential sides
    · exact .inl hseq
    · refine .inr fun last' hlast' hheld => ?_
      obtain rfl := Option.some.inj (hlast'.symm.trans hlast)
      exact mixed htmp hheld hfirst hsecond (hoverlap hseq) hun
  · rintro (hseq | hfree)
    · exact unmixed_of_orderly htmp hfirst hsecond hlength (hrow hseq) fun p hp =>
        path_cases paths htmp hp
    · refine unmixed_of_orderly htmp hfirst hsecond hlength hothers fun p hp => ?_
      rcases path_cases paths htmp hp with ⟨x, hx, rfl⟩ | hout
      · refine .inl ⟨x, (List.mem_erase_of_ne ?_).mpr hx, rfl⟩
        rintro rfl
        exact hfree last hlast hp
      · exact .inr hout

def samples : Paths where
  one side := if side = .first then "/a" else "/c"
  two side := if side = .first then "/b" else "/d"
  distinct := by decide

def taking : List Side := [.first, .second, .first, .second, .first, .second]

/-- The attributes of `/c` end at `/b`, and both calls succeed. -/
theorem exchange_takes_attributes :
    let t : Xattributes := ⟨[⟨"/a", "user.a", [1]⟩, ⟨"/c", "user.c", [2]⟩], by decide⟩
    let c := (samples.start t).turns apply taking
    c.state.rows = [⟨"/b", "user.a", [1]⟩, ⟨"/b", "user.c", [2]⟩] ∧ ¬samples.Unmixed t c := by
  refine ⟨by decide, fun hun => ?_⟩
  have hswapped := congrFun (hun.swapped "/d") "user.c"
  revert hswapped
  decide

theorem exchanges_unmixed_samples :
    let t : Xattributes := ⟨[⟨"/a", "user.a", [1]⟩, ⟨"/d", "user.d", [2]⟩], by decide⟩
    samples.Unmixed t ((samples.start t).turns apply taking) := by
  refine (exchanges_unmixed_iff samples _ taking ?_ rfl rfl).mpr (.inr fun last hlast => ?_)
  · unfold Held
    decide
  · obtain rfl := Option.some.inj hlast
    unfold Held
    decide

end Paths

end Calls

end ServerExchangeInterleaving
