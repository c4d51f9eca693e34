import RemoteFs.PosixFileTree
import RemoteFs.ServerAccess

/-! # Which bit decides

Where there are no links and no `..`, a path leads to the names it is made of, below the exported
root, and the decision is read off one object. -/
namespace ServerAccessDecision

open ClientAttributes
open OsPaths
open PosixTree
open PosixFileTree
open ServerAccess
open ServerPaths
open ServerStorage

/-! The conversions of the mode, on the words of the code -/

def tryToPermissionType (value : BitVec 32) : PermissionType :=
  ⟨value &&& 0b100#32 ≠ 0, value &&& 0b010#32 ≠ 0, value &&& 0b001#32 ≠ 0⟩

/-- `Permission::try_from` of an `i32`, which shifts with the sign. -/
def tryToPermission (value : BitVec 32) : Permission :=
  ⟨tryToPermissionType (value.sshiftRight 6), tryToPermissionType (value.sshiftRight 3),
    tryToPermissionType value⟩

/-- `Permission::try_from(perm as u16)`, which goes on `as i32`. -/
def ofPerm (perm : BitVec 32) : Permission := tryToPermission ((perm.setWidth 16).setWidth 32)

theorem and_bit (value : BitVec 32) (k : ℕ) (hk : BitVec.twoPow 32 k ≠ 0) :
    value &&& BitVec.twoPow 32 k ≠ 0 ↔ value.toNat.testBit k = true := by
  rw [BitVec.and_twoPow, ← BitVec.getLsbD]
  cases value.getLsbD k with
  | false => simp
  | true => simpa using hk

theorem tryToPermissionType_eq (value : BitVec 32) :
    tryToPermissionType value = .ofBits value.toNat := by
  have hread := and_bit value 2 (by decide)
  have hwrite := and_bit value 1 (by decide)
  have hexecute := and_bit value 0 (by decide)
  unfold tryToPermissionType PermissionType.ofBits
  congr 1
  · rw [← Bool.coe_iff_coe, decide_eq_true_iff]
    exact hread
  · rw [← Bool.coe_iff_coe, decide_eq_true_iff]
    exact hwrite
  · rw [← Bool.coe_iff_coe, decide_eq_true_iff]
    exact hexecute

/-- No sign is left after the way through `u16`, so the words say what the number says. -/
theorem ofPerm_eq (perm : BitVec 32) : ofPerm perm = Permission.ofMode perm.toNat := by
  have hsign : ((perm.setWidth 16).setWidth 32).msb = false := by
    rw [BitVec.msb_eq_getLsbD_last, BitVec.getLsbD_setWidth]
    simp
  have hnumber : ((perm.setWidth 16).setWidth 32).toNat = perm.toNat % 2 ^ 16 := by
    rw [BitVec.toNat_setWidth, BitVec.toNat_setWidth]
    omega
  unfold ofPerm tryToPermission Permission.ofMode
  simp only [tryToPermissionType_eq, BitVec.sshiftRight_eq_of_msb_false hsign,
    BitVec.toNat_ushiftRight, hnumber]

/-! The object that a path leads to -/

def names (path : Path) : List OsString :=
  path.filterMap fun
    | .normal n => some n
    | _ => none

def NoLinks (t : Tree) : Prop := ∀ l, (look t l).isLink = false

section Paths

variable {root : List OsString} {path : Path} {t : Tree} {l : Location}

theorem makeRealPath_absolute (h : .parentDir ∉ path) :
    makeRealPath (absolute root) path = absolute (root ++ names path) := by
  have hnames : (path.filter (· ≠ .rootDir)).filter (· ≠ .curDir) =
      (names path).map .normal := by
    induction path with
    | nil => rfl
    | cons c path ih =>
      rw [List.mem_cons, not_or] at h
      have ih := ih h.2
      cases c with
      | parentDir => exact (h.1 rfl).elim
      | rootDir => simpa [names] using ih
      | curDir => simpa [names] using ih
      | normal n => simpa [names] using ih
  have hhead : (path.filter (· ≠ .rootDir)).head? ≠ some .rootDir := by
    intro hhead
    have hmem := (List.mem_filter.mp (List.mem_of_mem_head? hhead)).2
    simp at hmem
  rw [makeRealPath, Path.join, if_neg hhead, if_neg (by simp [absolute]), hnames, absolute,
    absolute, List.map_append, List.cons_append]

theorem parent_absolute (h : l ≠ []) : Path.parent (absolute l) = some (absolute l.dropLast) := by
  obtain ⟨k, n, rfl⟩ := (List.eq_nil_or_concat l).resolve_left h
  rw [List.concat_eq_append, List.dropLast_concat, Path.parent, absolute, List.map_append,
    List.map_singleton, ← List.cons_append, List.getLast?_append, List.dropLast_concat]
  rfl

theorem walk_names (hlinks : NoLinks t) (hg : Grounded (look t)) (links : ℕ) (start : Location)
    (l : List OsString) (hl : t (start ++ l) ≠ none) :
    walk (look t) false links start (l.map .normal) = some (start ++ l) := by
  induction l generalizing start with
  | nil => cases links <;> simp [walk, walkWith]
  | cons n rest ih =>
    have hstep : start ++ [n] ++ rest = start ++ n :: rest := by simp
    have hrest := ih (start ++ [n]) (by rwa [hstep])
    rw [hstep] at hrest
    by_cases hnil : rest = []
    · subst hnil
      have hlook := hlinks (start ++ [n])
      cases links <;>
        · simp only [List.map_cons, List.map_nil, walk, walkWith]
          cases hfind : look t (start ++ [n]) with
          | link target => rw [hfind] at hlook; cases hlook
          | missing => simp
          | file => simp
          | directory => simp
    · have hdir : look t (start ++ [n]) = .directory :=
        hg.below hnil (by rw [hstep]; exact mt look_missing.mp hl)
      cases links <;>
        · simp only [List.map_cons, walk, walkWith, hdir]
          exact hrest

/-- Without links a path of names leads nowhere else. -/
theorem walk_names_end (hlinks : NoLinks t) (links : ℕ) (start k : Location) (l : List OsString)
    (h : walk (look t) false links start (l.map .normal) = some k) : k = start ++ l := by
  induction l generalizing start with
  | nil =>
    cases links <;>
      · simp only [List.map_nil, walk, walkWith, Option.some.injEq] at h
        rw [← h, List.append_nil]
  | cons n rest ih =>
    have hstep : start ++ [n] ++ rest = start ++ n :: rest := by simp
    have hlook := hlinks (start ++ [n])
    have hend : (if rest.map Component.normal = [] then some (start ++ [n]) else none) = some k →
        k = start ++ n :: rest := by
      intro hk
      split at hk
      · rename_i hnil
        rw [List.map_eq_nil_iff.mp hnil]
        exact (Option.some.inj hk).symm
      · cases hk
    have hdown := ih (start ++ [n])
    rw [hstep] at hdown
    cases links <;>
      · simp only [List.map_cons, walk, walkWith] at h hdown
        cases hfind : look t (start ++ [n]) with
        | link target => rw [hfind] at hlook; cases hlook
        | missing => rw [hfind] at h; exact hend h
        | file => rw [hfind] at h; exact hend h
        | directory => rw [hfind] at h; exact hdown h

theorem lstat_absolute (hlinks : NoLinks t) (hg : Grounded (look t)) (l : List OsString) :
    lstat t (absolute l) = (t l).map fun i => (l, i) := by
  have hroot : PosixTree.resolve t false (absolute l) =
      walk (look t) false maxLinks [] (l.map .normal) := rfl
  cases hobj : t l with
  | some i =>
    refine objectAt_some.mpr ⟨hroot.trans (walk_names hlinks hg maxLinks [] l ?_), hobj⟩
    rw [List.nil_append, hobj]
    exact Option.some_ne_none i
  | none =>
    rw [Option.map_none, Option.eq_none_iff_forall_ne_some]
    rintro ⟨k, i⟩ hfound
    obtain ⟨hk, hi⟩ := objectAt_some.mp hfound
    rw [walk_names_end hlinks maxLinks [] k l (hroot.symm.trans hk), List.nil_append, hobj] at hi
    cases hi

end Paths

/-- Where the decision is made: at the object, or at its parent where there is none. -/
def checkedPlace (t : Tree) (root : List OsString) (path : Path) : Location :=
  let l := root ++ names path
  if t l = none then l.dropLast else l

section Decisions

variable {root : List OsString} {path : Path} {t : Tree} {i : Inode} {user : AuthenticatedUser}
  {op : Operation} {m : ℕ}

theorem permits_mode (h : m % 0o1000 = i.mode % 0o1000) :
    permits user { i with mode := m } op = permits user i op := by
  have hbit : ∀ k, k < 9 → m.testBit k = i.mode.testBit k := by
    intro k hk
    have hlow : (m % 2 ^ 9).testBit k = (i.mode % 2 ^ 9).testBit k := congrArg (·.testBit k) h
    rwa [Nat.testBit_mod_two_pow, Nat.testBit_mod_two_pow, decide_eq_true hk, Bool.true_and,
      Bool.true_and] at hlow
  unfold permits
  dsimp only
  have hshift : (if user.userId = i.uid then 6 else if user.groupId = i.gid then 3 else 0) ≤ 6 := by
    split
    · exact le_rfl
    · split <;> omega
  cases op with
  | read => exact hbit _ (by omega)
  | write => exact hbit _ (by omega)
  | execute => exact hbit _ (by omega)
  | ownerOnly => rfl

theorem isAllowed_place (hlinks : NoLinks t) (hg : Grounded (look t))
    (hpath : .parentDir ∉ path) (hi : t (checkedPlace t root path) = some i) :
    (⟨absolute root⟩ : FileSystem).isAllowed t user path op =
      .ok (checkedPlace t root path = root || permits user i op) := by
  have hreal : makeRealPath (absolute root) path = absolute (root ++ names path) :=
    makeRealPath_absolute hpath
  have htop : makeRealPath (absolute root) [.rootDir] = absolute root :=
    (makeRealPath_absolute (by simp)).trans (by simp [names])
  have hsame : absolute (checkedPlace t root path) = makeRealPath (absolute root) [.rootDir] ↔
      checkedPlace t root path = root := by
    rw [htop]
    constructor
    · intro he
      exact (lexical_absolute _).symm.trans ((congrArg lexical he).trans (lexical_absolute _))
    · exact fun he => congrArg absolute he
  rw [← decide_eq_decide.mpr hsame]
  refine isAllowed_checked ?_ ((lstat_absolute hlinks hg _).trans (by rw [hi]; rfl))
  dsimp only
  rw [hreal, lstat_absolute hlinks hg]
  unfold checkedPlace
  by_cases hmissing : t (root ++ names path) = none
  · rw [if_pos hmissing, hmissing]
    refine .inr ⟨rfl, parent_absolute fun hnil => ?_⟩
    rw [hnil, ← look_missing] at hmissing
    rw [hg.root] at hmissing
    cases hmissing
  · rw [if_neg hmissing]
    exact .inl ⟨by simpa using hmissing, rfl⟩

end Decisions

/-- Everyone may do everything at the exported root, also where it is checked for something that is
not there; elsewhere the bit of one class decides, the owner's before the group's before the
others', and only the owner passes for one. No other bits of the mode count, and the words of the
code read the bits of the number. -/
theorem access_decision (root : List OsString) (t : FileTree) (hlinks : NoLinks t.objects)
    (user : AuthenticatedUser) (path : Path) (hpath : .parentDir ∉ path) (op : Operation)
    (i : Inode) (hi : t.objects (checkedPlace t.objects root path) = some i) :
    (⟨absolute root⟩ : FileSystem).isAllowed t.objects user path op =
        .ok (checkedPlace t.objects root path = root || permits user i op) ∧
      (∀ m, m % 0o1000 = i.mode % 0o1000 →
        (⟨absolute root⟩ : FileSystem).isAllowed (Function.update t.objects
            (checkedPlace t.objects root path) (some { i with mode := m })) user path op =
          (⟨absolute root⟩ : FileSystem).isAllowed t.objects user path op) ∧
      ∀ perm : BitVec 32, ofPerm perm = Permission.ofMode perm.toNat := by
  refine ⟨isAllowed_place hlinks t.grounded hpath hi, fun m hm => ?_, ofPerm_eq⟩
  obtain ⟨t', ht'⟩ : ∃ t', t' = Function.update t.objects (checkedPlace t.objects root path)
    (some { i with mode := m }) := ⟨_, rfl⟩
  have hlook : look t' = look t.objects := ht' ▸ look_update hi rfl
  have hplace : checkedPlace t' root path = checkedPlace t.objects root path := by
    have hmissing : t' (root ++ names path) = none ↔ t.objects (root ++ names path) = none := by
      rw [← look_missing, ← look_missing, hlook]
    unfold checkedPlace
    simp only [hmissing]
  have hobj : t' (checkedPlace t' root path) = some { i with mode := m } := by
    rw [hplace, ht']
    exact Function.update_self ..
  have hlinks' : NoLinks t' := fun l => hlook ▸ hlinks l
  rw [← ht', isAllowed_place hlinks' (hlook ▸ t.grounded) hpath hobj,
    isAllowed_place hlinks t.grounded hpath hi, hplace, permits_mode hm]

def plain : FileTree := .ofList
  [([], ⟨.directory 4096, 0o040755, 0, 0, ⟨0, 0⟩, ⟨0, 0⟩, ⟨0, 0⟩⟩),
    ([.text "srv"], ⟨.directory 4096, 0o040755, 0, 0, ⟨0, 0⟩, ⟨0, 0⟩, ⟨0, 0⟩⟩),
    ([.text "srv", .text "own"], ⟨.file [1, 2], 0o104464, 1000, 50, ⟨0, 0⟩, ⟨0, 0⟩, ⟨0, 0⟩⟩)]
  (by decide) (by decide)

theorem plain_noLinks : NoLinks plain.objects := by
  intro l
  cases hl : plain.objects l with
  | none => rw [look, hl]; rfl
  | some i =>
    obtain ⟨x, hx, rfl⟩ := Option.map_eq_some_iff.mp hl
    rw [look_some hl]
    have hmem := List.mem_of_find?_eq_some hx
    simp only [List.mem_cons, List.not_mem_nil, or_false] at hmem
    rcases hmem with rfl | rfl | rfl <;> rfl

theorem access_decision_owner :
    (⟨absolute [.text "srv"]⟩ : FileSystem).isAllowed plain.objects ⟨1000, 50⟩
      [.rootDir, .normal (.text "own")] .write = .ok false :=
  (access_decision [.text "srv"] plain plain_noLinks ⟨1000, 50⟩ [.rootDir, .normal (.text "own")]
    (by decide) .write ⟨.file [1, 2], 0o104464, 1000, 50, ⟨0, 0⟩, ⟨0, 0⟩, ⟨0, 0⟩⟩ (by decide)).1

/-- A stranger passes for the owner of the exported root, and may write what is not there yet by
its mode, which does not let others write. -/
theorem exported_root_is_anyones :
    let fs : FileSystem := ⟨absolute [.text "srv"]⟩
    let stranger : AuthenticatedUser := ⟨1001, 1001⟩
    (plain.objects [.text "srv"]).map Inode.uid = some 0 ∧
    fs.isAllowed plain.objects stranger [.rootDir] .ownerOnly = .ok true ∧
    (plain.objects [.text "srv", .text "new"] = none ∧
      (plain.objects [.text "srv"]).map (permits stranger · .write) = some false ∧
      fs.isAllowed plain.objects stranger [.rootDir, .normal (.text "new")] .write = .ok true) := by
  decide

end ServerAccessDecision
