import RemoteFs.OsPaths
import Mathlib.Data.List.Infix

/-! # From the path of a request to the path that is opened

The filter in `make_real_path` drops root components only, so how far a path leads up is
decided by its `..` components alone. -/
namespace ServerPaths

open OsPaths

def makeRealPath (realPath path : Path) : Path :=
  let clean := path.filter (· ≠ .rootDir)
  realPath.join clean

/-- `canonicalize` leaves an absolute path of names. -/
def absolute (names : List OsString) : Path := .rootDir :: names.map .normal

def resolve (names : List OsString) : Component → List OsString
  | .rootDir => []
  | .curDir => names
  | .parentDir => names.dropLast
  | .normal n => names ++ [n]

/-- The names left when `.` and `..` are resolved by the text alone. -/
def lexical (p : Path) : List OsString := p.foldl resolve []

def reduceStep : ℕ × List OsString → Component → ℕ × List OsString
  | (climb, names), .normal n => (climb, names ++ [n])
  | (climb, []), .parentDir => (climb + 1, [])
  | (climb, names), .parentDir => (climb, names.dropLast)
  | acc, _ => acc

/-- How many levels a path climbs above its start, and the names it then descends. -/
def reduce (p : Path) : ℕ × List OsString := p.foldl reduceStep (0, [])

/-- How the names of a request's path continue the exported root. -/
theorem makeRealPath_components (root : List OsString) (s : String) :
    makeRealPath (absolute root) (components s) =
      absolute root ++ ((segments s).map component).filter (· ≠ .curDir) := by
  rw [makeRealPath, Path.join, if_neg, if_neg (by exact nofun), components_names]
  intro hhead
  have hmem := List.mem_of_mem_head? hhead
  have := (List.mem_filter.mp hmem).2
  simp at this

theorem lexical_absolute (names : List OsString) : lexical (absolute names) = names := by
  have h : ∀ acc : List OsString,
      (names.map Component.normal).foldl resolve acc = acc ++ names := by
    induction names with
    | nil => intro acc; exact (List.append_nil acc).symm
    | cons n names ih =>
      intro acc
      rw [List.map_cons, List.foldl_cons, ih, resolve, List.append_assoc, List.singleton_append]
  exact h []

/-- One component of a relative path, seen from below a directory and on its own. -/
theorem resolve_reduceStep (start : List OsString) (climb : ℕ) (names : List OsString)
    {c : Component} (hc : c ≠ .rootDir) :
    resolve (start.take (start.length - climb) ++ names) c =
      start.take (start.length - (reduceStep (climb, names) c).1) ++
        (reduceStep (climb, names) c).2 := by
  cases c with
  | rootDir => exact (hc rfl).elim
  | curDir => cases names <;> rfl
  | normal n => cases names <;> simp [resolve, reduceStep]
  | parentDir =>
    cases names with
    | nil =>
      simp only [resolve, reduceStep, List.append_nil, List.dropLast_eq_take, List.length_take,
        List.take_take]
      congr 1
      omega
    | cons n names =>
      simp only [resolve, reduceStep]
      rw [List.dropLast_append_of_ne_nil (List.cons_ne_nil n names)]

theorem foldl_resolve (start : List OsString) (p : Path) : ∀ (climb : ℕ) (names : List OsString),
    (∀ c ∈ p, c ≠ .rootDir) →
    p.foldl resolve (start.take (start.length - climb) ++ names) =
      start.take (start.length - (p.foldl reduceStep (climb, names)).1) ++
        (p.foldl reduceStep (climb, names)).2 := by
  induction p with
  | nil => exact fun _ _ _ => rfl
  | cons c p ih =>
    intro climb names hp
    rw [List.foldl_cons, List.foldl_cons, resolve_reduceStep start climb names
      (hp c List.mem_cons_self)]
    exact ih _ _ fun d hd => hp d (List.mem_cons_of_mem _ hd)

/-- Where a continued root leads by its text: up from the root as far as the rest climbs, then
down the names that are left of it. -/
theorem lexical_below (root : List OsString) {rel : Path} (h : .rootDir ∉ rel) :
    lexical (absolute root ++ rel) =
      root.take (root.length - (reduce rel).1) ++ (reduce rel).2 := by
  have hfold := foldl_resolve root rel 0 [] fun c hc hroot => h (hroot ▸ hc)
  rw [Nat.sub_zero, List.take_length, List.append_nil] at hfold
  have hroot : (absolute root).foldl resolve [] = root := lexical_absolute root
  rw [lexical, List.foldl_append, hroot, hfold]
  rfl

/-- The path comes down again through as many names of the root as it climbs. -/
def Inside (root : List OsString) (rel : Path) : Prop :=
  root.drop (root.length - (reduce rel).1) <+: (reduce rel).2

instance (root : List OsString) (rel : Path) : Decidable (Inside root rel) :=
  inferInstanceAs (Decidable (_ <+: _))

theorem below_confined_iff (root : List OsString) {rel : Path} (h : .rootDir ∉ rel) :
    root <+: lexical (absolute root ++ rel) ↔ Inside root rel := by
  rw [lexical_below root h]
  conv_lhs => lhs; rw [← List.take_append_drop (root.length - (reduce rel).1) root]
  exact List.prefix_append_right_inj _

def belowRoot (path : String) : Path := ((segments path).map component).filter (· ≠ .curDir)

theorem rootDir_not_mem_belowRoot (path : String) : .rootDir ∉ belowRoot path := by
  intro hmem
  obtain ⟨segment, -, hroot⟩ := List.mem_map.mp (List.mem_filter.mp hmem).1
  exact component_ne_rootDir segment hroot

/-- The opened path stays below the exported root exactly if the request, after climbing,
comes down again through the last names of the root. -/
theorem confined_iff (root : List OsString) (path : String) :
    root <+: lexical (makeRealPath (absolute root) (components path)) ↔
      Inside root (belowRoot path) := by
  rw [makeRealPath_components]
  exact below_confined_iff root (rootDir_not_mem_belowRoot path)

/-- `..` as the first name of a request leads to a sibling of the exported root. -/
theorem parent_component_escapes :
    ¬([.text "srv", .text "data"] <+: lexical (makeRealPath
      (absolute [.text "srv", .text "data"]) (components "/../secret"))) := by
  decide

theorem reduce_climb (p : Path) (h : .parentDir ∉ p) : (reduce p).1 = 0 := by
  have hfold : ∀ names, (p.foldl reduceStep (0, names)).1 = 0 := by
    induction p with
    | nil => exact fun _ => rfl
    | cons c p ih =>
      intro names
      have hc : c ≠ .parentDir := fun hc => h (hc ▸ List.mem_cons_self)
      have hp : .parentDir ∉ p := fun hp => h (List.mem_cons_of_mem _ hp)
      rw [List.foldl_cons]
      cases c with
      | parentDir => exact (hc rfl).elim
      | rootDir => cases names <;> exact ih hp _
      | curDir => cases names <;> exact ih hp _
      | normal n => exact ih hp _
  exact hfold []

theorem confined_without_parent (root : List OsString) (path : String)
    (h : .parentDir ∉ components path) :
    root <+: lexical (makeRealPath (absolute root) (components path)) := by
  have hnames : .parentDir ∉ belowRoot path := by
    rw [belowRoot, ← components_names]
    exact fun hmem => h (List.mem_filter.mp (List.mem_filter.mp hmem).1).1
  rw [confined_iff, Inside, reduce_climb _ hnames, Nat.sub_zero, List.drop_length]
  exact List.nil_prefix

end ServerPaths
