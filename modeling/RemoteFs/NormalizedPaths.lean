import RemoteFs.ServerPaths

/-! # Normalised paths

`normalize_path` is the same code in client and server. Names of generated files and of logs
go through it before they are joined to the working directory. -/
namespace NormalizedPaths

open OsPaths
open ServerPaths

/-- `PathBuf::pop` leaves a path without parent as it is. -/
def pop (p : Path) : Path := p.parent.getD p

def normalizeComponent (ret : Path) : Component → Path
  | .rootDir => ret.join [.rootDir]
  | .curDir => ret
  | .parentDir => pop ret
  | .normal c => ret.join [.normal c]

def normalizePath (path : Path) : Path := path.foldl normalizeComponent []

def built (root : Bool) (names : List OsString) : Path :=
  (if root then [.rootDir] else []) ++ names.map .normal

def climbs (p : Path) : ℕ := p.count .parentDir
def names (p : Path) : ℕ := p.countP fun c => c matches .normal _

/-- In no part from the front do the `..` outnumber the names. -/
def Balanced (p : Path) : Prop := ∀ q, q <+: p → climbs q ≤ names q

variable {p : Path} {root : Bool} {ns : List OsString}

theorem pop_built (root : Bool) (ns : List OsString) :
    pop (built root ns) = built root ns.dropLast := by
  rcases List.eq_nil_or_concat ns with rfl | ⟨before, n, rfl⟩
  · cases root <;> rfl
  · have hlast : built root (before.concat n) = built root before ++ [.normal n] := by
      simp [built]
    have hdrop : (before.concat n).dropLast = before := by simp
    rw [hlast, hdrop]
    simp [pop, Path.parent]

theorem push_built (root : Bool) (ns : List OsString) (n : OsString) :
    (built root ns).join [.normal n] = built root (ns ++ [n]) := by
  cases root with
  | true => simp [built, Path.join]
  | false => cases ns <;> simp [built, Path.join]

/-- One component: the names change as the lexical resolution has it, and a root replaces
what came before. -/
theorem normalizeComponent_built (c : Component) :
    normalizeComponent (built root ns) c =
      built (root || decide (c = .rootDir)) (resolve ns c) := by
  cases c with
  | rootDir => simp [normalizeComponent, resolve, built, Path.join]
  | curDir => simp [normalizeComponent, resolve]
  | parentDir => simp [normalizeComponent, resolve, pop_built]
  | normal n => simp [normalizeComponent, resolve, push_built]

theorem foldl_normalizeComponent (p : Path) : ∀ (root : Bool) (ns : List OsString),
    p.foldl normalizeComponent (built root ns) =
      built (root || decide (.rootDir ∈ p)) (p.foldl resolve ns) := by
  induction p with
  | nil => simp
  | cons c p ih =>
    intro root ns
    rw [List.foldl_cons, List.foldl_cons, normalizeComponent_built, ih]
    simp only [List.mem_cons, Bool.decide_or, Bool.or_assoc, eq_comm]

/-- The normal form is the lexical one, with a root if the path had one. -/
theorem normalizePath_eq (p : Path) :
    normalizePath p = built (decide (.rootDir ∈ p)) (lexical p) := by
  have h := foldl_normalizeComponent p false []
  simpa [built, normalizePath, lexical] using h

theorem mem_built_rootDir : .rootDir ∈ built root ns ↔ root = true := by
  cases root <;> simp [built]

theorem foldl_resolve_names (start ns : List OsString) :
    (ns.map Component.normal).foldl resolve start = start ++ ns := by
  induction ns generalizing start with
  | nil => simp
  | cons n ns ih => simp [ih, resolve]

theorem lexical_built (root : Bool) (ns : List OsString) : lexical (built root ns) = ns := by
  cases root with
  | true => exact lexical_absolute ns
  | false => simpa [built, lexical] using foldl_resolve_names [] ns

theorem normalizePath_built (root : Bool) (ns : List OsString) :
    normalizePath (built root ns) = built root ns := by
  rw [normalizePath_eq, lexical_built]
  congr 1
  rw [Bool.eq_iff_iff, decide_eq_true_iff]
  exact mem_built_rootDir

theorem normalizePath_idempotent (p : Path) :
    normalizePath (normalizePath p) = normalizePath p := by
  rw [normalizePath_eq p]
  exact normalizePath_built _ _

theorem normalizePath_no_dot (p : Path) : .curDir ∉ normalizePath p := by
  rw [normalizePath_eq]
  cases decide (.rootDir ∈ p) <;> simp [built]

/-- Where a path starts does not matter once it comes to a root. -/
theorem foldl_resolve_root (h : .rootDir ∈ p) (start start' : List OsString) :
    p.foldl resolve start = p.foldl resolve start' := by
  induction p generalizing start start' with
  | nil => cases h
  | cons c p ih =>
    rw [List.foldl_cons, List.foldl_cons]
    rcases List.mem_cons.mp h with rfl | h
    · rfl
    · exact ih h _ _

theorem foldl_resolve_filter (start : List OsString) (p : Path) :
    (p.filter (· ≠ .curDir)).foldl resolve start = p.foldl resolve start := by
  induction p generalizing start with
  | nil => rfl
  | cons c p ih =>
    cases c with
    | curDir => simpa [resolve] using ih start
    | rootDir => simpa using ih _
    | parentDir => simpa using ih _
    | normal n => simpa using ih _

/-- A joined path is resolved from where the first one leads. -/
theorem lexical_join (cwd q : Path) : lexical (cwd.join q) = q.foldl resolve (lexical cwd) := by
  unfold Path.join
  split
  · rename_i hroot
    exact foldl_resolve_root (List.mem_of_head? hroot) _ _
  · split
    · rename_i hnil
      rw [hnil]
      rfl
    · rw [lexical, List.foldl_append, foldl_resolve_filter]
      rfl

theorem lexical_join_built (cwd : Path) (root : Bool) (ns : List OsString) :
    lexical (cwd.join (built root ns)) = if root then ns else lexical cwd ++ ns := by
  rw [lexical_join]
  cases root with
  | true => simpa [built, resolve] using foldl_resolve_names [] ns
  | false => simpa [built] using foldl_resolve_names _ ns

theorem lexical_join_relative (cwd : Path) (h : .rootDir ∉ p) :
    lexical (cwd.join p) =
      (lexical cwd).take ((lexical cwd).length - (reduce p).1) ++ (reduce p).2 := by
  have hno : ∀ c ∈ p, c ≠ .rootDir := by
    rintro c hc rfl
    exact h hc
  have hfold := foldl_resolve (lexical cwd) p 0 [] hno
  rw [Nat.sub_zero, List.take_length, List.append_nil] at hfold
  rw [lexical_join, hfold]
  rfl

theorem lexical_relative (h : .rootDir ∉ p) : lexical p = (reduce p).2 := by
  have hfold := lexical_join_relative [] h
  have hjoin : lexical (Path.join [] p) = lexical p := lexical_join [] p
  rw [hjoin] at hfold
  simpa [lexical] using hfold

theorem reduceStep_climb (acc : ℕ × List OsString) (c : Component) :
    acc.1 ≤ (reduceStep acc c).1 := by
  obtain ⟨climb, ns⟩ := acc
  cases c <;> cases ns <;> simp [reduceStep]

theorem foldl_reduceStep_climb (p : Path) (acc : ℕ × List OsString) :
    acc.1 ≤ (p.foldl reduceStep acc).1 := by
  induction p generalizing acc with
  | nil => exact le_refl _
  | cons c p ih => exact (reduceStep_climb acc c).trans (ih _)

theorem prefix_cons_forall {c : Component} {P : Path → Prop} :
    (∀ q, q <+: c :: p → P q) ↔ P [] ∧ ∀ q, q <+: p → P (c :: q) := by
  constructor
  · exact fun h => ⟨h _ List.nil_prefix, fun q hq => h _ (List.cons_prefix_cons.mpr ⟨rfl, hq⟩)⟩
  · rintro ⟨hnil, hcons⟩ q hq
    rcases List.prefix_cons_iff.mp hq with rfl | ⟨r, rfl, hr⟩
    · exact hnil
    · exact hcons r hr

/-- The path climbs above the names it started with exactly if some part from the front
has more `..` than there were names before. -/
theorem foldl_reduceStep_stays (p : Path) (climb : ℕ) (ns : List OsString) :
    (p.foldl reduceStep (climb, ns)).1 = climb ↔
      ∀ q, q <+: p → climbs q ≤ ns.length + names q := by
  induction p generalizing ns with
  | nil => simp [climbs]
  | cons c p ih =>
    rw [prefix_cons_forall, List.foldl_cons]
    cases c with
    | rootDir =>
      have hskip : reduceStep (climb, ns) .rootDir = (climb, ns) := by cases ns <;> rfl
      rw [hskip, ih]
      simp [climbs, names]
    | curDir =>
      have hskip : reduceStep (climb, ns) .curDir = (climb, ns) := by cases ns <;> rfl
      rw [hskip, ih]
      simp [climbs, names]
    | normal n =>
      rw [reduceStep, ih]
      simp [climbs, names, Nat.add_assoc, Nat.add_comm 1]
    | parentDir =>
      cases ns with
      | nil =>
        have hmono := foldl_reduceStep_climb p (climb + 1, [])
        constructor
        · intro h
          rw [reduceStep] at h
          dsimp only at hmono
          omega
        · rintro ⟨-, h⟩
          have hone := h [] List.nil_prefix
          simp [climbs, names] at hone
      | cons n ns =>
        have hback : reduceStep (climb, n :: ns) .parentDir = (climb, (n :: ns).dropLast) := rfl
        have hlen : (n :: ns).dropLast.length = ns.length := by simp
        have hnone : climbs [] ≤ (n :: ns).length + names [] := Nat.zero_le _
        rw [hback, ih, hlen]
        simp only [hnone, true_and]
        refine forall₂_congr fun q _ => ?_
        have hclimbs : climbs (.parentDir :: q) = climbs q + 1 := List.count_cons_self
        have hnames : names (.parentDir :: q) = names q := List.countP_cons_of_neg (by simp)
        rw [hclimbs, hnames, List.length_cons]
        omega

theorem reduce_climb_eq_zero (p : Path) : (reduce p).1 = 0 ↔ Balanced p := by
  rw [reduce, foldl_reduceStep_stays]
  simp [Balanced]

/-- What the normal form of a path has to be, seen from a working directory. -/
structure KeepsMeaning (cwd path : Path) : Prop where
  location : lexical (cwd.join (normalizePath path)) = lexical (cwd.join path)
  no_dot : .curDir ∉ normalizePath path
  stable : normalizePath (normalizePath path) = normalizePath path

theorem location_iff (cwd p : Path) :
    lexical (cwd.join (normalizePath p)) = lexical (cwd.join p) ↔
      .rootDir ∈ p ∨ Balanced p ∨ lexical cwd = [] := by
  rw [normalizePath_eq, lexical_join_built]
  by_cases hroot : .rootDir ∈ p
  · have habs : lexical (cwd.join p) = lexical p := by
      rw [lexical_join]
      exact foldl_resolve_root hroot _ _
    simp [hroot, habs]
  · rw [lexical_join_relative cwd hroot, lexical_relative hroot, ← reduce_climb_eq_zero]
    simp only [hroot, decide_false, Bool.false_eq_true, if_false, false_or]
    rw [List.append_cancel_right_eq, eq_comm, List.take_eq_self_iff, ← List.length_eq_zero_iff]
    omega

/-- The normal form leads to the same place except where leading `..` of a relative path
are lost below a working directory that has a parent. -/
theorem normalizePath_keeps_iff (cwd path : Path) :
    KeepsMeaning cwd path ↔ .rootDir ∈ path ∨ Balanced path ∨ lexical cwd = [] := by
  constructor
  · intro h
    exact (location_iff cwd path).mp h.location
  · intro h
    exact ⟨(location_iff cwd path).mpr h, normalizePath_no_dot path,
      normalizePath_idempotent path⟩

/-- From `/home/user`, `../rfs.toml` becomes `rfs.toml`. -/
theorem leading_parent_lost :
    ¬KeepsMeaning (components "/home/user") (components "../rfs.toml") := by
  intro h
  have hlocation := h.location
  revert hlocation
  decide

end NormalizedPaths
