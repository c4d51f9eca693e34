import Mathlib.Data.List.Basic

/-! # Paths of the standard library

Two paths are equal when their component sequences are, so a path is modelled by its
components. Only Unix paths are covered; there are no prefixes. -/
namespace OsPaths

/-- A file name is Unicode text or a byte string that is not valid UTF-8. -/
inductive OsString where
  | text (s : String)
  | raw (bytes : List UInt8)
  deriving DecidableEq, Repr

inductive Component where
  | rootDir
  | curDir
  | parentDir
  | normal (name : OsString)
  deriving DecidableEq, Repr

abbrev Path := List Component

def Path.fileName (p : Path) : Option OsString :=
  match p.getLast? with
  | some (.normal n) => some n
  | _ => none

/-- The path without its final component; a root and the empty path have none. -/
def Path.parent (p : Path) : Option Path :=
  match p.getLast? with
  | none | some .rootDir => none
  | some _ => some p.dropLast

/-- An absolute second path replaces the first one. A `.` survives only in front. -/
def Path.join (p q : Path) : Path :=
  if q.head? = some .rootDir then q
  else if p = [] then q
  else p ++ q.filter (· ≠ .curDir)

def Path.child (p : Path) (name : OsString) : Path := p ++ [.normal name]

theorem Path.ne_child (p : Path) (name : OsString) : p ≠ p.child name := by
  intro he
  have hlen := congrArg List.length he
  simp [Path.child] at hlen

/-- A file name up to its last dot; a dot in front does not count. -/
def stem {α : Type} [DecidableEq α] (dot : α) (name : List α) : List α :=
  match name.reverse.dropWhile (· ≠ dot) with
  | [] => name
  | _ :: before => if before = [] then name else before.reverse

def OsString.ofBytes (bytes : List UInt8) : OsString :=
  match String.fromUTF8? ⟨bytes.toArray⟩ with
  | some s => .text s
  | none => .raw bytes

def OsString.withExtension (extension : String) : OsString → OsString
  | .text s => .text (String.ofList (stem '.' s.toList ++ '.' :: extension.toList))
  | .raw bytes => .ofBytes (stem 46 bytes ++ 46 :: extension.toList.flatMap String.utf8EncodeChar)

/-- Without its extension, but with the dot in front of that, the name is `..`. -/
def OsString.dotted : OsString → Bool
  | .text s => stem '.' s.toList = ['.'] ∧ s.toList ≠ ['.']
  | .raw bytes => stem 46 bytes = [46] ∧ bytes ≠ [46]

/-- The old extension goes first, and what does not end in a name then stays as it is. -/
def Path.withExtension (p : Path) (extension : String) : Path :=
  match p.fileName with
  | none => p
  | some n =>
    if n.dotted then p.dropLast ++ [.parentDir]
    else Path.child p.dropLast (n.withExtension extension)

def Path.isUtf8 (p : Path) : Bool :=
  p.all fun c => match c with
    | .normal (.raw _) => false
    | _ => true

/-- A list is cut at the last occurrence of an element. -/
theorem cut_at_last {α : Type} [DecidableEq α] {c d : α} {l before : List α}
    (h : l.reverse.dropWhile (· ≠ c) = d :: before) :
    l = before.reverse ++ c :: (l.reverse.takeWhile (· ≠ c)).reverse ∧
      c ∉ (l.reverse.takeWhile (· ≠ c)).reverse := by
  have hd : d = c := by
    have hne : l.reverse.dropWhile (· ≠ c) ≠ [] := by
      rw [h]
      exact nofun
    have hhead := List.head_dropWhile_not (· ≠ c) hne
    simp only [h, List.head_cons, decide_eq_false_iff_not, not_not] at hhead
    exact hhead
  constructor
  · have hsplit := List.takeWhile_append_dropWhile (p := (· ≠ c)) (l := l.reverse)
    rw [h, hd] at hsplit
    have hrev := congrArg List.reverse hsplit
    rw [List.reverse_append, List.reverse_reverse, List.reverse_cons, List.append_assoc,
      List.singleton_append] at hrev
    exact hrev.symm
  · intro hmem
    have hall := List.all_eq_true.mp List.all_takeWhile _ (List.mem_reverse.mp hmem)
    exact of_decide_eq_true hall rfl

theorem stem_cases {α : Type} [DecidableEq α] (dot : α) (name : List α) : stem dot name = name ∨
    ∃ after, dot ∉ after ∧ name = stem dot name ++ dot :: after := by
  unfold stem
  split
  · exact .inl rfl
  · rename_i d before hd
    obtain ⟨hcut, hafter⟩ := cut_at_last hd
    split
    · exact .inl rfl
    · exact .inr ⟨_, hafter, hcut⟩

theorem stem_extend_ne {α : Type} [DecidableEq α] (dot : α) (name e : List α) :
    stem dot name ++ dot :: dot :: e ≠ name := by
  intro he
  rcases stem_cases dot name with hs | ⟨after, hafter, hs⟩
  · have hlen := congrArg List.length he
    rw [hs, List.length_append] at hlen
    simp at hlen
  · have hsame := List.append_cancel_left (he.trans hs)
    injection hsame with _ hsame
    exact hafter (hsame ▸ List.mem_cons_self)

/-- An extension that starts with a dot makes another name. -/
theorem OsString.withExtension_ne (name : OsString) {extension : String}
    (h : extension.toList.head? = some '.') : name.withExtension extension ≠ name := by
  obtain ⟨rest, hrest⟩ := List.head?_eq_some_iff.mp h
  cases name with
  | text s =>
    intro he
    injection he with he
    have hlist := congrArg String.toList he
    rw [String.toList_ofList, hrest] at hlist
    exact stem_extend_ne '.' s.toList rest hlist
  | raw bytes =>
    intro he
    rw [withExtension, ofBytes] at he
    split at he
    · cases he
    · injection he with he
      rw [hrest] at he
      exact stem_extend_ne 46 bytes _ he

def component (segment : List Char) : Component :=
  if segment = ['.'] then .curDir
  else if segment = ['.', '.'] then .parentDir
  else .normal (.text (String.ofList segment))

def segments (s : String) : List (List Char) := (s.toList.splitOn '/').filter (· ≠ [])

/-- Repeated separators and a trailing one are dropped, and so is every `.` that is
not the first component of a relative path. -/
def components (s : String) : Path :=
  let body := (segments s).map component
  if s.toList.head? = some '/' then .rootDir :: body.filter (· ≠ .curDir)
  else match body with
    | .curDir :: rest => .curDir :: rest.filter (· ≠ .curDir)
    | _ => body.filter (· ≠ .curDir)

theorem component_ne_rootDir (segment : List Char) : component segment ≠ .rootDir := by
  unfold component
  split
  · exact nofun
  · split <;> exact nofun

theorem segments_append (a b : List Char) : segments (String.ofList (a ++ '/' :: b)) =
    segments (String.ofList a) ++ segments (String.ofList b) := by
  unfold segments
  rw [String.toList_ofList, String.toList_ofList, String.toList_ofList,
    List.splitOn_append_cons_self, List.filter_append]

theorem components_names (s : String) :
    ((components s).filter (· ≠ .rootDir)).filter (· ≠ .curDir) =
      ((segments s).map component).filter (· ≠ .curDir) := by
  have hbody : ((segments s).map component).filter (· ≠ .rootDir) =
      (segments s).map component := by
    refine List.filter_eq_self.mpr fun c hc => ?_
    obtain ⟨segment, -, rfl⟩ := List.mem_map.mp hc
    exact decide_eq_true (component_ne_rootDir segment)
  have hstrip : ∀ body : Path, body.filter (· ≠ .rootDir) = body →
      ((body.filter (· ≠ .curDir)).filter (· ≠ .rootDir)).filter (· ≠ .curDir) =
        body.filter (· ≠ .curDir) := by
    intro body hbody
    have hnames : (body.filter (· ≠ .curDir)).filter (· ≠ .rootDir) =
        body.filter (· ≠ .curDir) := by
      rw [List.filter_comm, hbody]
    rw [hnames]
    exact List.filter_eq_self.mpr fun c hc => (List.mem_filter.mp hc).2
  unfold components
  dsimp only
  split
  · rw [List.filter_cons_of_neg (by simp), hstrip _ hbody]
  · split
    · rename_i rest hrest
      rw [hrest] at hbody ⊢
      rw [List.filter_cons_of_pos (by simp)] at hbody
      rw [List.filter_cons_of_pos (by simp), List.filter_cons_of_neg (by simp),
        List.filter_cons_of_neg (by simp), hstrip _ (List.cons.inj hbody).2]
    · exact hstrip _ hbody

theorem components_relative {s : String} (h : s.toList.head? ≠ some '/') :
    .rootDir ∉ components s := by
  have hbody : Component.rootDir ∉ (segments s).map component := by
    intro hmem
    obtain ⟨segment, -, hsegment⟩ := List.mem_map.mp hmem
    exact component_ne_rootDir segment hsegment
  unfold components
  dsimp only
  rw [if_neg h]
  split
  · rename_i rest hrest
    rw [hrest] at hbody
    intro hmem
    rcases List.mem_cons.mp hmem with heq | hmem
    · cases heq
    · exact hbody (List.mem_cons_of_mem _ (List.mem_filter.mp hmem).1)
  · exact fun hmem => hbody (List.mem_filter.mp hmem).1

end OsPaths
