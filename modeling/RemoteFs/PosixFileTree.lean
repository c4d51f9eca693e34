import RemoteFs.PosixTree
import Mathlib.Data.Finset.Card
import Mathlib.Data.List.Infix

/-! # Unix file trees that hang together

Every object stands in a directory, so a path leads to a place in a directory. A subtree that
moves, a name that is filled and one that is freed leave it so. -/
namespace PosixFileTree

open OsPaths
open PosixTree

structure Grounded (find : Location → Look) : Prop where
  root : find [] = .directory
  parents : ∀ l n, find (l ++ [n]) ≠ .missing → find l = .directory

/-- `places` lists all objects, and perhaps more places. -/
structure FileTree where
  objects : Tree
  places : List Location
  listed : ∀ l, objects l ≠ none → l ∈ places
  grounded : Grounded (look objects)

section Walks

variable {find find' : Location → Look} {start k k' l : Location} {p : Path} {n : OsString}
variable {expand expand' : Location → Path → Option Location} {follow : Bool}

theorem Grounded.above (hg : Grounded find) (h : find l = .directory) :
    find l.dropLast = .directory := by
  rcases List.eq_nil_or_concat l with rfl | ⟨k, n, rfl⟩
  · exact hg.root
  · rw [List.concat_eq_append] at h ⊢
    rw [List.dropLast_concat]
    refine hg.parents k n ?_
    rw [h]
    exact nofun

/-- Only a directory has anything below it. -/
theorem Grounded.below (hg : Grounded find) {s : Location} (hs : s ≠ []) :
    find (l ++ s) ≠ .missing → find l = .directory := by
  induction s using List.reverseRecOn with
  | nil => exact (hs rfl).elim
  | append_singleton s n ih =>
    intro h
    rw [← List.append_assoc] at h
    have hdir := hg.parents _ _ h
    by_cases hnil : s = []
    · rwa [hnil, List.append_nil] at hdir
    · refine ih hnil ?_
      rw [hdir]
      exact nofun

/-- A walk ends in a directory or at a name in one. -/
theorem walkWith_home (hg : Grounded find)
    (hexp : ∀ start p, find start = .directory → expand start p = some l →
      find l.dropLast = .directory) : ∀ start, find start = .directory →
    walkWith expand find follow start p = some l → find l.dropLast = .directory := by
  induction p with
  | nil =>
    intro start hs h
    obtain rfl := Option.some.inj h
    exact hg.above hs
  | cons c rest ih =>
    intro start hs h
    cases c with
    | rootDir => exact ih _ hg.root h
    | curDir => exact ih _ hs h
    | parentDir => exact ih _ (hg.above hs) h
    | normal n =>
      have hend : start ++ [n] = l → find l.dropLast = .directory := by
        rintro rfl
        rwa [List.dropLast_concat]
      rw [walkWith] at h
      split at h
      · rename_i hfind
        exact ih _ hfind h
      · split at h
        · exact hend (Option.some.inj h)
        · exact hexp _ _ hs h
      all_goals
        split at h
        · exact hend (Option.some.inj h)
        · cases h

theorem walk_home (hg : Grounded find) (links : ℕ) : ∀ start p, find start = .directory →
    walk find follow links start p = some l → find l.dropLast = .directory := by
  induction links with
  | zero => exact fun start p => walkWith_home hg (fun _ _ _ h => by cases h) start
  | succ links ih => exact fun start p => walkWith_home hg ih start

/-- The place of a name is in the directory that the rest of the path leads to. -/
theorem walkWith_child (hg : Grounded find)
    (hexp : ∀ start p, find start = .directory → expand start (p ++ [.normal n]) =
      (expand' start p).bind fun k => if find k = .directory then some (k ++ [n]) else none) :
    ∀ start, find start = .directory →
      walkWith expand find false start (p ++ [.normal n]) =
        (walkWith expand' find true start p).bind fun k =>
          if find k = .directory then some (k ++ [n]) else none := by
  induction p with
  | nil =>
    intro start hs
    rw [List.nil_append, walkWith, walkWith, Option.bind_some, if_pos hs]
    cases find (start ++ [n]) <;> rfl
  | cons c rest ih =>
    intro start hs
    cases c with
    | rootDir => exact ih _ hg.root
    | curDir => exact ih _ hs
    | parentDir => exact ih _ (hg.above hs)
    | normal m =>
      have hne : rest ++ [Component.normal n] ≠ [] := by simp
      have hstop : ∀ look, find (start ++ [m]) = look → look ≠ .directory →
          (if rest = [] then some (start ++ [m]) else none).bind
            (fun k => if find k = .directory then some (k ++ [n]) else none) = none := by
        intro look hlook hdir
        split
        · rw [Option.bind_some, hlook, if_neg hdir]
        · rfl
      rw [List.cons_append, walkWith, walkWith]
      cases hfind : find (start ++ [m]) with
      | directory => exact ih _ hfind
      | link target =>
        simp only [hne, false_and, Bool.true_eq_false, and_false, ↓reduceIte]
        rw [← List.append_assoc]
        exact hexp _ _ hs
      | file =>
        dsimp only
        rw [if_neg hne, hstop _ hfind (by simp)]
      | missing =>
        dsimp only
        rw [if_neg hne, hstop _ hfind (by simp)]

theorem walk_child (hg : Grounded find) (links : ℕ) : ∀ start p, find start = .directory →
    walk find false links start (p ++ [.normal n]) =
      (walk find true links start p).bind fun k =>
        if find k = .directory then some (k ++ [n]) else none := by
  induction links with
  | zero => exact fun start p => walkWith_child hg (fun _ _ _ => rfl) start
  | succ links ih => exact fun start p => walkWith_child hg ih start

def Agree (find find' : Location → Look) : Prop :=
  ∀ l, find l ≠ .missing → find' l ≠ .missing → find' l = find l

/-- Two walks that agree on what both find, and both reach a directory, reach the same one. -/
theorem walkWith_agree (ha : Agree find find')
    (hexp : ∀ start p, expand start p = some k → expand' start p = some k' → k' = k)
    (hk : find k = .directory) (hk' : find' k' = .directory) : ∀ start,
    walkWith expand find true start p = some k →
      walkWith expand' find' true start p = some k' → k' = k := by
  induction p with
  | nil =>
    intro start h h'
    exact (Option.some.inj h').symm.trans (Option.some.inj h)
  | cons c rest ih =>
    intro start h h'
    cases c with
    | rootDir => exact ih _ h h'
    | curDir => exact ih _ h h'
    | parentDir => exact ih _ h h'
    | normal n =>
      rw [walkWith] at h h'
      have hseen : ∀ {find : Location → Look} {k}, find k = .directory →
          (if rest = [] then some (start ++ [n]) else none) = some k →
          find (start ++ [n]) = .directory := by
        intro find k hk h
        split at h
        · rwa [Option.some.inj h]
        · cases h
      cases hfind : find (start ++ [n]) with
      | missing =>
        rw [hfind] at h
        exact absurd (hseen hk h) (by simp [hfind])
      | file =>
        rw [hfind] at h
        exact absurd (hseen hk h) (by simp [hfind])
      | directory =>
        rw [hfind] at h
        by_cases hmiss : find' (start ++ [n]) = .missing
        · rw [hmiss] at h'
          exact absurd (hseen hk' h') (by simp [hmiss])
        · have heq := ha _ (by simp [hfind]) hmiss
          rw [heq, hfind] at h'
          exact ih _ h h'
      | link target =>
        rw [hfind] at h
        simp only [Bool.true_eq_false, and_false, ↓reduceIte] at h
        by_cases hmiss : find' (start ++ [n]) = .missing
        · rw [hmiss] at h'
          exact absurd (hseen hk' h') (by simp [hmiss])
        · have heq := ha _ (by simp [hfind]) hmiss
          rw [heq, hfind] at h'
          simp only [Bool.true_eq_false, and_false, ↓reduceIte] at h'
          exact hexp _ _ h h'

theorem walk_agree (ha : Agree find find') (hk : find k = .directory)
    (hk' : find' k' = .directory) (links : ℕ) : ∀ start p,
    walk find true links start p = some k → walk find' true links start p = some k' → k' = k := by
  induction links with
  | zero => exact fun start p => walkWith_agree ha (fun _ _ h => by cases h) hk hk' start
  | succ links ih => exact fun start p => walkWith_agree ha ih hk hk' start

end Walks

section Places

def directoryAt (t : Tree) (p : Path) : Option Location :=
  (resolve t true p).filter fun l => look t l = .directory

/-- Where the last name of a path stands or could stand; a final link is not followed. -/
def place (t : Tree) (p : Path) : Option Location :=
  match p.fileName with
  | none => none
  | some _ => resolve t false p

variable {t t' : Tree} {p : Path} {l k k' : Location} {n : OsString} {s : Location}

theorem look_missing : look t l = .missing ↔ t l = none := by
  unfold look
  cases t l with
  | none => exact iff_of_true rfl rfl
  | some i =>
    refine iff_of_false ?_ nofun
    dsimp only
    cases i.kind <;> exact nofun

theorem directoryAt_eq_some :
    directoryAt t p = some l ↔ resolve t true p = some l ∧ look t l = .directory := by
  rw [directoryAt, Option.filter_eq_some_iff, decide_eq_true_iff]

theorem fileName_eq_some : p.fileName = some n ↔ p = p.dropLast ++ [.normal n] := by
  unfold Path.fileName
  constructor
  · intro h
    split at h
    · rename_i m hm
      obtain rfl := Option.some.inj h
      exact (List.dropLast_append_getLast? _ hm).symm
    · cases h
  · intro h
    rw [h, List.getLast?_append]
    rfl

theorem place_child (hg : Grounded (look t)) (h : p.fileName = some n) :
    place t p = (directoryAt t p.dropLast).map (· ++ [n]) := by
  have hwalk := walk_child (n := n) hg maxLinks [] p.dropLast hg.root
  rw [← fileName_eq_some.mp h] at hwalk
  unfold place
  rw [h]
  dsimp only
  rw [resolve, hwalk, directoryAt, resolve]
  cases walk (look t) true maxLinks [] p.dropLast with
  | none => rfl
  | some k =>
    rw [Option.bind_some, Option.filter_some]
    by_cases hk : look t k = .directory
    · simp [hk]
    · simp [hk]

theorem place_eq_some (hg : Grounded (look t)) :
    place t p = some l ↔
      ∃ k n, p.fileName = some n ∧ directoryAt t p.dropLast = some k ∧ l = k ++ [n] := by
  constructor
  · intro h
    cases hname : p.fileName with
    | none =>
      unfold place at h
      rw [hname] at h
      cases h
    | some n =>
      rw [place_child hg hname, Option.map_eq_some_iff] at h
      obtain ⟨k, hk, rfl⟩ := h
      exact ⟨k, n, rfl, hk, rfl⟩
  · rintro ⟨k, n, hname, hk, rfl⟩
    rw [place_child hg hname, hk]
    rfl

theorem resolve_home (hg : Grounded (look t)) {follow : Bool} (h : resolve t follow p = some l) :
    look t l.dropLast = .directory := walk_home hg _ _ _ hg.root h

theorem place_resolve (h : place t p = some l) : resolve t false p = some l := by
  unfold place at h
  split at h
  · cases h
  · exact h

theorem place_home (hg : Grounded (look t)) (h : place t p = some l) :
    look t l.dropLast = .directory := resolve_home hg (place_resolve h)

theorem home_of_some (hg : Grounded (look t)) (h : t l ≠ none) :
    look t l.dropLast = .directory := by
  rcases List.eq_nil_or_concat l with rfl | ⟨k, n, rfl⟩
  · exact hg.root
  · rw [List.concat_eq_append] at h ⊢
    rw [List.dropLast_concat]
    exact hg.parents k n (mt look_missing.mp h)

theorem place_ne_nil (hg : Grounded (look t)) (h : place t p = some l) : l ≠ [] := by
  obtain ⟨k, n, -, -, rfl⟩ := (place_eq_some hg).mp h
  exact List.append_ne_nil_of_right_ne_nil _ nofun

theorem directoryAt_agree (ha : Agree (look t) (look t')) (h : directoryAt t p = some k)
    (h' : directoryAt t' p = some k') : k' = k := by
  obtain ⟨hw, hk⟩ := directoryAt_eq_some.mp h
  obtain ⟨hw', hk'⟩ := directoryAt_eq_some.mp h'
  exact walk_agree ha hk hk' _ _ _ hw hw'

/-- In trees that agree on what both hold, a path leads to one place. -/
theorem place_agree (hg : Grounded (look t)) (hg' : Grounded (look t'))
    (ha : Agree (look t) (look t')) {l' : Location} (h : place t p = some l)
    (h' : place t' p = some l') : l' = l := by
  obtain ⟨k, n, hn, hk, rfl⟩ := (place_eq_some hg).mp h
  obtain ⟨k', n', hn', hk', rfl⟩ := (place_eq_some hg').mp h'
  rw [directoryAt_agree ha hk hk', Option.some.inj (hn'.symm.trans hn)]

theorem lstat_of_place (h : place t p = some l) : lstat t p = (t l).map fun i => (l, i) := by
  rw [lstat, objectAt, place_resolve h, Option.bind_some]

end Places

namespace FileTree

variable (t : FileTree)

def entries (l : Location) : List Location :=
  t.places.filter fun k => decide (k ≠ [] ∧ k.dropLast = l ∧ (t.objects k).isSome)

section Lemmas

variable {t : FileTree} {l s : Location} {n : OsString} {i : Inode}

theorem below (hs : s ≠ []) (h : t.objects (l ++ s) ≠ none) : look t.objects l = .directory :=
  t.grounded.below hs (mt look_missing.mp h)

theorem ne_none_of_directory (h : look t.objects l = .directory) : t.objects l ≠ none := by
  intro hn
  rw [look_missing.mpr hn] at h
  cases h

theorem mem_entries {k : Location} : k ∈ t.entries l ↔ ∃ n, k = l ++ [n] ∧ t.objects k ≠ none := by
  rw [entries, List.mem_filter, decide_eq_true_iff]
  constructor
  · rintro ⟨-, hne, rfl, hk⟩
    refine ⟨k.getLast hne, (List.dropLast_append_getLast hne).symm, ?_⟩
    exact Option.isSome_iff_ne_none.mp hk
  · rintro ⟨n, rfl, hk⟩
    refine ⟨t.listed _ hk, List.append_ne_nil_of_right_ne_nil _ nofun, List.dropLast_concat, ?_⟩
    exact Option.isSome_iff_ne_none.mpr hk

theorem entries_eq_nil : t.entries l = [] ↔ ∀ s, s ≠ [] → t.objects (l ++ s) = none := by
  constructor
  · intro h s hs
    by_contra hne
    obtain ⟨n, rest, rfl⟩ := List.exists_cons_of_ne_nil hs
    have hfirst : t.objects (l ++ [n]) ≠ none := by
      by_cases hrest : rest = []
      · rwa [hrest] at hne
      · rw [List.append_cons] at hne
        exact ne_none_of_directory (below hrest hne)
    have hmem := mem_entries.mpr ⟨n, rfl, hfirst⟩
    rw [h] at hmem
    cases hmem
  · intro h
    refine List.eq_nil_iff_forall_not_mem.mpr fun k hk => ?_
    obtain ⟨n, rfl, hne⟩ := mem_entries.mp hk
    exact hne (h [n] nofun)

theorem entries_congr {u : FileTree} (h : u.objects = t.objects) (l : Location) :
    u.entries l = [] ↔ t.entries l = [] := by
  rw [entries_eq_nil, entries_eq_nil, h]

theorem leaf (h : look t.objects l ≠ .directory) (hs : s ≠ []) : t.objects (l ++ s) = none := by
  by_contra hne
  exact h (below hs hne)

end Lemmas

def ofList (objects : List (Location × Inode))
    (root : look (fun l => (objects.find? fun x => x.1 = l).map Prod.snd) [] = .directory)
    (homes : ∀ x ∈ objects, look (fun l => (objects.find? fun x => x.1 = l).map Prod.snd)
      x.1.dropLast = .directory) : FileTree where
  objects l := (objects.find? fun x => x.1 = l).map Prod.snd
  places := objects.map Prod.fst
  listed := by
    intro l hl
    cases hfind : objects.find? fun x => x.1 = l with
    | none =>
      rw [hfind] at hl
      exact (hl rfl).elim
    | some x =>
      have hx := List.find?_some hfind
      exact List.mem_map.mpr ⟨x, List.mem_of_find?_eq_some hfind, of_decide_eq_true hx⟩
  grounded := by
    refine ⟨root, fun l n hobj => ?_⟩
    have hl := mt look_missing.mpr hobj
    cases hfind : objects.find? fun x => x.1 = l ++ [n] with
    | none =>
      rw [hfind] at hl
      exact (hl rfl).elim
    | some x =>
      have hfound := List.find?_some hfind
      have hx : x.1 = l ++ [n] := of_decide_eq_true hfound
      have hhome := homes x (List.mem_of_find?_eq_some hfind)
      rwa [hx, List.dropLast_concat] at hhome

end FileTree

section Moves

def Apart (k l : Location) : Prop := ¬k <+: l ∧ ¬l <+: k

instance (k l : Location) : Decidable (Apart k l) := inferInstanceAs (Decidable (_ ∧ _))

def moved (t : Tree) (old new : Location) : Tree := fun l =>
  if new <+: l then t (old ++ l.drop new.length)
  else if old <+: l then none
  else t l

variable {t : Tree} {k l old new s r : Location}

theorem Apart.symm (h : Apart k l) : Apart l k := ⟨h.2, h.1⟩

theorem Apart.append (h : Apart k l) : Apart (k ++ s) (l ++ r) := by
  constructor
  · intro hp
    rcases List.prefix_or_prefix_of_prefix ((List.prefix_append k s).trans hp)
      (List.prefix_append l r) with h' | h'
    · exact h.1 h'
    · exact h.2 h'
  · intro hp
    rcases List.prefix_or_prefix_of_prefix ((List.prefix_append l r).trans hp)
      (List.prefix_append k s) with h' | h'
    · exact h.2 h'
    · exact h.1 h'

theorem Apart.not_prefix (h : Apart k l) : ¬k <+: l ++ r := fun hp => by
  have := (h.append (s := []) (r := r)).1
  rw [List.append_nil] at this
  exact this hp

theorem Apart.ne (h : Apart k l) : k ≠ l := fun he => h.1 (he ▸ List.prefix_rfl)

theorem apart_names {m n : OsString} (h : m ≠ n) : Apart (k ++ [m]) (k ++ [n]) := by
  have hp : ∀ {m n : OsString}, k ++ [m] <+: k ++ [n] → m = n := by
    intro m n hp
    rw [List.prefix_append_right_inj] at hp
    exact (List.cons_prefix_cons.mp hp).1
  exact ⟨fun h' => h (hp h'), fun h' => h (hp h').symm⟩

@[simp] theorem moved_new : moved t old new (new ++ s) = t (old ++ s) := by
  rw [moved, if_pos (List.prefix_append _ _), List.drop_left]

theorem moved_old (h : Apart old new) : moved t old new (old ++ s) = none := by
  rw [moved, if_neg h.symm.not_prefix, if_pos (List.prefix_append _ _)]

@[simp] theorem moved_at_new : moved t old new new = t old := by
  rw [moved, if_pos List.prefix_rfl, List.drop_length, List.append_nil]

theorem moved_at_old (h : Apart old new) : moved t old new old = none := by
  rw [moved, if_neg h.2, if_pos List.prefix_rfl]

theorem moved_other (hold : ¬old <+: l) (hnew : ¬new <+: l) : moved t old new l = t l := by
  rw [moved, if_neg hnew, if_neg hold]

/-- Where a place of the moved tree gets its object from. -/
theorem moved_cases (t : Tree) (h : Apart old new) (l : Location) :
    (∃ s, l = new ++ s ∧ moved t old new l = t (old ++ s)) ∨
    (old <+: l ∧ moved t old new l = none) ∨
    (¬old <+: l ∧ ¬new <+: l ∧ moved t old new l = t l) := by
  by_cases hnew : new <+: l
  · obtain ⟨s, rfl⟩ := hnew
    exact .inl ⟨s, rfl, moved_new⟩
  by_cases hold : old <+: l
  · obtain ⟨s, rfl⟩ := hold
    exact .inr (.inl ⟨List.prefix_append _ _, moved_old h⟩)
  · exact .inr (.inr ⟨hold, hnew, moved_other hold hnew⟩)

theorem look_moved : look (moved t old new) (new ++ s) = look t (old ++ s) := by
  rw [look, moved_new, look]

theorem look_moved_other (hold : ¬old <+: l) (hnew : ¬new <+: l) :
    look (moved t old new) l = look t l := by
  rw [look, moved_other hold hnew, look]

theorem moved_grounded (hg : Grounded (look t)) (h : Apart old new)
    (home : look t new.dropLast = .directory) : Grounded (look (moved t old new)) := by
  have hne : ∀ {k : Location}, look (moved t old new) k ≠ .missing → moved t old new k ≠ none :=
    fun hk hn => hk (look_missing.mpr hn)
  constructor
  · rw [look_moved_other, hg.root]
    · intro hp
      exact h.1 (List.prefix_nil.mp hp ▸ List.nil_prefix)
    · intro hp
      exact h.2 (List.prefix_nil.mp hp ▸ List.nil_prefix)
  · intro l n hobj
    have hsub : l <+: l ++ [n] := List.prefix_append _ _
    rcases moved_cases t h (l ++ [n]) with ⟨s, hs, he⟩ | ⟨hold, he⟩ | ⟨hold, hnew, he⟩
    · rcases List.eq_nil_or_concat s with rfl | ⟨s, m, rfl⟩
      · -- The moved object itself: its directory is another than itself.
        rw [List.append_nil] at hs
        have hhome : look t l = .directory := by
          rwa [← hs, List.dropLast_concat] at home
        rw [look_moved_other (fun hp => h.1 (hs ▸ hp.trans hsub)), hhome]
        intro hp
        have hlen := hp.length_le
        rw [← hs, List.length_append] at hlen
        exact absurd hlen (by simp)
      · rw [List.concat_eq_append, ← List.append_assoc] at hs
        obtain ⟨rfl, hm⟩ := List.append_inj' hs rfl
        rw [look_moved]
        refine hg.parents (old ++ s) m fun hmiss => hne hobj ?_
        rw [he, List.concat_eq_append, ← List.append_assoc]
        exact look_missing.mp hmiss
    · exact absurd he (hne hobj)
    · rw [look_moved_other (fun hp => hold (hp.trans hsub)) (fun hp => hnew (hp.trans hsub))]
      refine hg.parents l n fun hmiss => hne hobj ?_
      rw [he]
      exact look_missing.mp hmiss

theorem put_grounded {i : Inode} (hg : Grounded (look t)) (home : look t l.dropLast = .directory)
    (hkind : look t l = .directory → i.kind.look = .directory) :
    Grounded (look (Function.update t l (some i))) := by
  have hdir : ∀ k, look t k = .directory →
      look (Function.update t l (some i)) k = .directory := by
    intro k hk
    by_cases hkl : k = l
    · subst hkl
      rw [look_some (Function.update_self ..)]
      exact hkind hk
    · rwa [look, Function.update_of_ne hkl, ← look]
  refine ⟨hdir _ hg.root, fun k n hobj => hdir _ ?_⟩
  by_cases hkl : k ++ [n] = l
  · rwa [← hkl, List.dropLast_concat] at home
  · rw [look, Function.update_of_ne hkl] at hobj
    exact hg.parents k n hobj

theorem erase_grounded (hg : Grounded (look t)) (hl : l ≠ [])
    (hempty : ∀ s, s ≠ [] → t (l ++ s) = none) : Grounded (look (Function.update t l none)) := by
  have hstay : ∀ k, k ≠ l → look (Function.update t l none) k = look t k := by
    intro k hk
    rw [look, Function.update_of_ne hk, look]
  refine ⟨(hstay [] hl.symm).trans hg.root, fun k n hobj => ?_⟩
  have hne : k ++ [n] ≠ l := fun he => hobj (by
    rw [he, look_missing, Function.update_self])
  rw [hstay _ hne] at hobj
  have hk : k ≠ l := by
    rintro rfl
    exact hobj (look_missing.mpr (hempty [n] (List.cons_ne_nil _ _)))
  rw [hstay _ hk]
  exact hg.parents k n hobj

end Moves

end PosixFileTree
