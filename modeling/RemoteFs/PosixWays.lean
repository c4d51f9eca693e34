import RemoteFs.PosixFileTree

/-! # What a path passes on its way

The resolution of a path depends only on the places that it looks at. A path stays as it is
while these stay, and while the tree only grows. -/
namespace PosixWays

open OsPaths
open PosixTree
open PosixFileTree

def seenWith (expand : Location → Path → List Location) (find : Location → Look) :
    Location → Path → List Location
  | _, [] => []
  | _, .rootDir :: rest => seenWith expand find [] rest
  | start, .curDir :: rest => seenWith expand find start rest
  | start, .parentDir :: rest => seenWith expand find start.dropLast rest
  | start, .normal n :: rest =>
    (start ++ [n]) ::
      match find (start ++ [n]) with
      | .directory => seenWith expand find (start ++ [n]) rest
      | .link target => expand start (target ++ rest)
      | .file | .missing => []

def seen (find : Location → Look) : ℕ → Location → Path → List Location
  | 0 => seenWith (fun _ _ => []) find
  | links + 1 => seenWith (seen find links) find

/-- What a path passes before its last name, which `lstat` only looks up. -/
def way (t : Tree) (p : Path) : List Location :=
  seen (look t) maxLinks [] (if p.fileName = none then p else p.dropLast)

def Named (t : Tree) (p : Path) : Prop := lstat t p ≠ none

instance (t : Tree) (p : Path) : Decidable (Named t p) := inferInstanceAs (Decidable (_ ≠ _))

section Walks

variable {find find' : Location → Look} {start l k c : Location} {p : Path}
variable {expand expand' : Location → Path → Option Location}
variable {next next' : Location → Path → List Location}

theorem walkWith_congr
    (hexp : ∀ start p, (∀ l ∈ next start p, find' l = find l) → expand' start p = expand start p)
    (hnext : ∀ start p, (∀ l ∈ next start p, find' l = find l) → next' start p = next start p) :
    ∀ start, (∀ l ∈ seenWith next find start p, find' l = find l) →
      walkWith expand' find' true start p = walkWith expand find true start p ∧
        seenWith next' find' start p = seenWith next find start p := by
  induction p with
  | nil => exact fun _ _ => ⟨rfl, rfl⟩
  | cons c rest ih =>
    intro start h
    cases c with
    | rootDir => exact ih _ h
    | curDir => exact ih _ h
    | parentDir => exact ih _ h
    | normal n =>
      rw [seenWith, List.forall_mem_cons] at h
      obtain ⟨hhere, hrest⟩ := h
      rw [walkWith, walkWith, seenWith, seenWith, hhere]
      cases hfind : find (start ++ [n]) with
      | directory =>
        rw [hfind] at hrest
        obtain ⟨hw, hs⟩ := ih _ hrest
        exact ⟨hw, congrArg _ hs⟩
      | link target =>
        rw [hfind] at hrest
        simp only [Bool.true_eq_false, and_false, ↓reduceIte]
        exact ⟨hexp _ _ hrest, congrArg _ (hnext _ _ hrest)⟩
      | file => exact ⟨rfl, rfl⟩
      | missing => exact ⟨rfl, rfl⟩

theorem walk_congr (links : ℕ) : ∀ start p, (∀ l ∈ seen find links start p, find' l = find l) →
    walk find' true links start p = walk find true links start p ∧
      seen find' links start p = seen find links start p := by
  induction links with
  | zero => exact fun start p => walkWith_congr (fun _ _ _ => rfl) (fun _ _ _ => rfl) start
  | succ links ih =>
    exact fun start p => walkWith_congr (fun start p h => (ih start p h).1)
      (fun start p h => (ih start p h).2) start

theorem seen_here {rest : Path} {n : OsString} (h : c <+: start ++ [n]) :
    c ∈ seenWith next find start (.normal n :: rest) ∨ c <+: start := by
  rcases List.prefix_concat_iff.mp h with rfl | hpre
  · rw [seenWith]
    exact .inl List.mem_cons_self
  · exact .inr hpre

/-- Whoever looks below a place has looked at it, or started there. -/
theorem seenWith_above (hne : c ≠ [])
    (hnext : ∀ start p, l ∈ next start p → c <+: l → c ∈ next start p ∨ c <+: start) :
    ∀ start, l ∈ seenWith next find start p → c <+: l →
      c ∈ seenWith next find start p ∨ c <+: start := by
  induction p with
  | nil => exact fun _ h => by cases h
  | cons d rest ih =>
    intro start h hc
    cases d with
    | rootDir =>
      rcases ih _ h hc with hin | hpre
      · exact .inl hin
      · exact (hne (List.prefix_nil.mp hpre)).elim
    | curDir => exact ih _ h hc
    | parentDir => exact (ih _ h hc).imp_right fun hpre => hpre.trans (List.dropLast_prefix _)
    | normal n =>
      rw [seenWith] at h
      rcases List.mem_cons.mp h with rfl | h
      · exact seen_here hc
      cases hfind : find (start ++ [n]) with
      | directory =>
        rw [hfind] at h
        rcases ih _ h hc with hin | hpre
        · rw [seenWith, hfind]
          exact .inl (List.mem_cons_of_mem _ hin)
        · exact seen_here hpre
      | link target =>
        rw [hfind] at h
        rw [seenWith, hfind]
        exact (hnext _ _ h hc).imp_left (List.mem_cons_of_mem _)
      | file =>
        rw [hfind] at h
        cases h
      | missing =>
        rw [hfind] at h
        cases h

theorem seen_above (hne : c ≠ []) (links : ℕ) : ∀ start p, l ∈ seen find links start p →
    c <+: l → c ∈ seen find links start p ∨ c <+: start := by
  induction links with
  | zero => exact fun start p => seenWith_above hne (fun _ _ h => by cases h) start
  | succ links ih => exact fun start p => seenWith_above hne ih start

theorem walkWith_above (hne : c ≠ [])
    (hexp : ∀ start p, expand start p = some k → c <+: k → c ∈ next start p ∨ c <+: start) :
    ∀ start, walkWith expand find true start p = some k → c <+: k →
      c ∈ seenWith next find start p ∨ c <+: start := by
  induction p with
  | nil =>
    intro start h hc
    rw [Option.some.inj h]
    exact .inr hc
  | cons d rest ih =>
    intro start h hc
    cases d with
    | rootDir =>
      rcases ih _ h hc with hin | hpre
      · exact .inl hin
      · exact (hne (List.prefix_nil.mp hpre)).elim
    | curDir => exact ih _ h hc
    | parentDir => exact (ih _ h hc).imp_right fun hpre => hpre.trans (List.dropLast_prefix _)
    | normal n =>
      have hend : (if rest = [] then some (start ++ [n]) else none) = some k →
          c ∈ seenWith next find start (.normal n :: rest) ∨ c <+: start := by
        intro h
        split at h
        · exact seen_here ((Option.some.inj h).symm ▸ hc)
        · cases h
      rw [walkWith] at h
      cases hfind : find (start ++ [n]) with
      | directory =>
        rw [hfind] at h
        rcases ih _ h hc with hin | hpre
        · rw [seenWith, hfind]
          exact .inl (List.mem_cons_of_mem _ hin)
        · exact seen_here hpre
      | link target =>
        rw [hfind] at h
        simp only [Bool.true_eq_false, and_false, ↓reduceIte] at h
        rw [seenWith, hfind]
        exact (hexp _ _ h hc).imp_left (List.mem_cons_of_mem _)
      | file =>
        rw [hfind] at h
        exact hend h
      | missing =>
        rw [hfind] at h
        exact hend h

theorem walk_above (hne : c ≠ []) (links : ℕ) : ∀ start p,
    walk find true links start p = some k → c <+: k →
      c ∈ seen find links start p ∨ c <+: start := by
  induction links with
  | zero => exact fun start p => walkWith_above hne (fun _ _ h => by cases h) start
  | succ links ih => exact fun start p => walkWith_above hne ih start

theorem walkWith_nameless
    (hexp : ∀ start p, p.fileName = none → expand start p = expand' start p) :
    ∀ start, p.fileName = none →
      walkWith expand find false start p = walkWith expand' find true start p := by
  induction p with
  | nil => exact fun _ _ => rfl
  | cons d rest ih =>
    intro start h
    have hrest : Path.fileName rest = none := by
      cases rest with
      | nil => rfl
      | cons e rest => rwa [Path.fileName, List.getLast?_cons_cons] at h
    cases d with
    | rootDir => exact ih _ hrest
    | curDir => exact ih _ hrest
    | parentDir => exact ih _ hrest
    | normal n =>
      have hne : rest ≠ [] := by
        rintro rfl
        cases h
      rw [walkWith, walkWith]
      cases hfind : find (start ++ [n]) with
      | directory => exact ih _ hrest
      | link target =>
        simp only [hne, Bool.true_eq_false, false_and, ↓reduceIte]
        refine hexp _ _ ?_
        rw [Path.fileName, List.getLast?_append_of_ne_nil _ hne]
        exact hrest
      | file => rfl
      | missing => rfl

theorem walk_nameless (links : ℕ) : ∀ start p, Path.fileName p = none →
    walk find false links start p = walk find true links start p := by
  induction links with
  | zero => exact fun start p => walkWith_nameless (fun _ _ _ => rfl) start
  | succ links ih => exact fun start p => walkWith_nameless ih start

/-- A walk that ends at an object ends there also where there are more objects. -/
theorem walkWith_grows {follow : Bool} (hg : ∀ l, find l ≠ .missing → find' l = find l)
    (hk : find k ≠ .missing)
    (hexp : ∀ start p, expand start p = some k → expand' start p = some k) : ∀ start,
    walkWith expand find follow start p = some k →
      walkWith expand' find' follow start p = some k := by
  induction p with
  | nil => exact fun _ h => h
  | cons d rest ih =>
    intro start h
    cases d with
    | rootDir => exact ih _ h
    | curDir => exact ih _ h
    | parentDir => exact ih _ h
    | normal n =>
      rw [walkWith] at h ⊢
      by_cases hmiss : find (start ++ [n]) = .missing
      · rw [hmiss] at h
        dsimp only at h
        split at h
        · rw [← Option.some.inj h] at hk
          exact (hk hmiss).elim
        · cases h
      rw [hg _ hmiss]
      cases hfind : find (start ++ [n]) with
      | directory =>
        rw [hfind] at h
        exact ih _ h
      | link target =>
        rw [hfind] at h
        dsimp only at h ⊢
        split at h
        · rw [if_pos (by assumption)]
          exact h
        · rw [if_neg (by assumption)]
          exact hexp _ _ h
      | file => rwa [hfind] at h
      | missing => exact (hmiss hfind).elim

theorem walk_grows {follow : Bool} (hg : ∀ l, find l ≠ .missing → find' l = find l)
    (hk : find k ≠ .missing) (links : ℕ) : ∀ start p,
    walk find follow links start p = some k → walk find' follow links start p = some k := by
  induction links with
  | zero => exact fun start p => walkWith_grows hg hk (fun _ _ h => by cases h) start
  | succ links ih => exact fun start p => walkWith_grows hg hk ih start

end Walks

section Paths

variable {t t' : Tree} {p : Path} {l c : Location}

def Grows (t t' : Tree) : Prop := ∀ l, look t l ≠ .missing → look t' l = look t l

theorem Grows.trans {t'' : Tree} (h : Grows t t') (h' : Grows t' t'') : Grows t t'' := by
  intro l hl
  have hsame := h l hl
  rw [h' l (hsame ▸ hl), hsame]

theorem Grows.refl (t : Tree) : Grows t t := fun _ _ => rfl

theorem named_iff : Named t p ↔ ∃ l, resolve t false p = some l ∧ t l ≠ none := by
  unfold Named
  constructor
  · intro h
    obtain ⟨⟨l, i⟩, hli⟩ := Option.ne_none_iff_exists'.mp h
    obtain ⟨hl, hi⟩ := objectAt_some.mp hli
    exact ⟨l, hl, by simp [hi]⟩
  · rintro ⟨l, hl, hne⟩
    obtain ⟨i, hi⟩ := Option.ne_none_iff_exists'.mp hne
    rw [lstat, objectAt_some.mpr ⟨hl, hi⟩]
    exact Option.some_ne_none _

theorem Named.grows (h : Named t p) (hg : Grows t t') : Named t' p := by
  obtain ⟨l, hl, hne⟩ := named_iff.mp h
  have hmiss : look t l ≠ .missing := mt look_missing.mp hne
  refine named_iff.mpr ⟨l, walk_grows hg hmiss _ _ _ hl, fun hnone => ?_⟩
  rw [← hg l hmiss] at hmiss
  exact hmiss (look_missing.mpr hnone)

theorem place_grows (hg : Grounded (look t)) (hg' : Grounded (look t')) (h : Grows t t')
    (hp : place t p = some l) : place t' p = some l := by
  obtain ⟨k, n, hn, hk, rfl⟩ := (place_eq_some hg).mp hp
  obtain ⟨hw, hdir⟩ := directoryAt_eq_some.mp hk
  have hmiss : look t k ≠ .missing := by
    rw [hdir]
    exact nofun
  refine (place_eq_some hg').mpr ⟨k, n, hn, directoryAt_eq_some.mpr ⟨?_, ?_⟩, rfl⟩
  · exact walk_grows h hmiss _ _ _ hw
  · rw [h k hmiss, hdir]

theorem named_of_place (h : place t p = some l) (hne : t l ≠ none) : Named t p :=
  named_iff.mpr ⟨l, place_resolve h, hne⟩

theorem way_above (hc : c ≠ []) (h : l ∈ way t p) (hp : c <+: l) : c ∈ way t p :=
  (seen_above hc _ _ _ h hp).resolve_right fun hnil => hc (List.prefix_nil.mp hnil)

/-- A path that changes nothing on its way leads to the same place. -/
theorem resolve_congr (hg : Grounded (look t)) (hg' : Grounded (look t'))
    (h : ∀ l ∈ way t p, look t' l = look t l) : resolve t' false p = resolve t false p := by
  unfold way at h
  cases hn : p.fileName with
  | none =>
    rw [if_pos hn] at h
    rw [resolve, resolve, walk_nameless _ _ _ hn, walk_nameless _ _ _ hn]
    exact (walk_congr _ _ _ h).1
  | some n =>
    rw [if_neg (by simp [hn])] at h
    have hw := (walk_congr _ _ _ h).1
    rw [fileName_eq_some.mp hn, resolve, resolve, walk_child hg' _ _ _ hg'.root,
      walk_child hg _ _ _ hg.root, hw]
    cases hk : walk (look t) true maxLinks [] p.dropLast with
    | none => rfl
    | some k =>
      rw [Option.bind_some, Option.bind_some]
      by_cases hnil : k = []
      · rw [hnil, if_pos hg'.root, if_pos hg.root]
      · rcases walk_above hnil _ _ _ hk List.prefix_rfl with hin | hpre
        · rw [h k hin]
        · exact (hnil (List.prefix_nil.mp hpre)).elim

/-- What a path ends in or below of, it has passed. -/
theorem resolve_above (hg : Grounded (look t)) (h : resolve t false p = some l) (hc : c ≠ [])
    (hp : c <+: l) : c ∈ way t p ∨ c = l := by
  unfold way
  cases hn : p.fileName with
  | none =>
    rw [if_pos rfl]
    rw [resolve, walk_nameless _ _ _ hn] at h
    rcases walk_above hc _ _ _ h hp with hin | hpre
    · exact .inl hin
    · exact (hc (List.prefix_nil.mp hpre)).elim
  | some n =>
    rw [if_neg (Option.some_ne_none _)]
    rw [fileName_eq_some.mp hn, resolve, walk_child hg _ _ _ hg.root] at h
    obtain ⟨k, hk, hif⟩ := Option.bind_eq_some_iff.mp h
    split at hif
    · obtain rfl := Option.some.inj hif
      rcases List.prefix_concat_iff.mp hp with rfl | hpre
      · exact .inr rfl
      · rcases walk_above hc _ _ _ hk hpre with hin | hpre
        · exact .inl hin
        · exact (hc (List.prefix_nil.mp hpre)).elim
    · cases hif

end Paths

end PosixWays
