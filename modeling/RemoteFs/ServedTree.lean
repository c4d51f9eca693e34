import RemoteFs.RemoteTree
import RemoteFs.ServerAccessDecision
import RemoteFs.ServerExchange
import RemoteFs.ServerRequests

/-! # The exported tree and the objects behind it

To the client the server is a tree of paths. Here that tree is what the server's own objects show
below the exported root: a path of names stands for the object at these names. -/
namespace ServedTree

open OsPaths
open PosixTree
open PosixFileTree
open RemoteTree
open ServerAccessDecision (makeRealPath_absolute names)
open ServerPaths

/-! Paths of names -/

def Direct (find : Location → Look) (l : Location) : Prop :=
  ∀ k, k <+: l → k ≠ l → (find k).isLink = false

section Walks

variable {find : Location → Look} {s k l : Location} {n : OsString} {ns : List OsString}
variable {expand : Location → Path → Option Location} {follow : Bool}

/-- A path of names that no link diverts leads to its names. -/
theorem walkWith_direct (hdirect : Direct find (s ++ ns))
    (hlast : follow = true → (find (s ++ ns)).isLink = false) :
    walkWith expand find follow s (ns.map .normal) = some k → k = s ++ ns := by
  induction ns generalizing s with
  | nil =>
    intro h
    rw [List.append_nil]
    exact (Option.some.inj h).symm
  | cons n rest ih =>
    intro h
    have hstep : s ++ [n] ++ rest = s ++ n :: rest := by simp
    have hdown := ih (s := s ++ [n]) (by rwa [hstep]) (by rwa [hstep])
    rw [hstep] at hdown
    have hend : (if rest.map Component.normal = [] then some (s ++ [n]) else none) = some k →
        k = s ++ n :: rest := by
      intro hk
      split at hk
      · rename_i hnil
        rw [List.map_eq_nil_iff.mp hnil]
        exact (Option.some.inj hk).symm
      · cases hk
    rw [List.map_cons, walkWith] at h
    cases hfind : find (s ++ [n]) with
    | directory =>
      rw [hfind] at h
      exact hdown h
    | file =>
      rw [hfind] at h
      exact hend h
    | missing =>
      rw [hfind] at h
      exact hend h
    | link target =>
      rw [hfind] at h
      dsimp only at h
      by_cases hnil : rest = []
      · subst hnil
        cases follow with
        | true =>
          have hlink := hlast rfl
          rw [hfind] at hlink
          cases hlink
        | false =>
          rw [List.map_nil, if_pos ⟨rfl, rfl⟩] at h
          exact (Option.some.inj h).symm
      · have hlink := hdirect (s ++ [n]) (by rw [← hstep]; exact List.prefix_append _ _)
          (by rw [← hstep]; exact fun he => hnil (List.self_eq_append_right.mp he))
        rw [hfind] at hlink
        cases hlink

theorem walkWith_reaches (hg : Grounded find) (hobj : find (s ++ ns) ≠ .missing)
    (hlast : follow = true → (find (s ++ ns)).isLink = false) :
    walkWith expand find follow s (ns.map .normal) = some (s ++ ns) := by
  induction ns generalizing s with
  | nil => rw [List.map_nil, walkWith, List.append_nil]
  | cons n rest ih =>
    have hstep : s ++ [n] ++ rest = s ++ n :: rest := by simp
    have hdown := ih (s := s ++ [n]) (by rwa [hstep]) (by rwa [hstep])
    rw [hstep] at hdown
    rw [List.map_cons, walkWith]
    by_cases hnil : rest = []
    · subst hnil
      rw [List.map_nil] at hdown ⊢
      cases hfind : find (s ++ [n]) with
      | directory => exact hdown
      | file => exact if_pos rfl
      | missing => exact absurd hfind hobj
      | link target =>
        cases follow with
        | true =>
          have hlink := hlast rfl
          rw [hfind] at hlink
          cases hlink
        | false => exact if_pos ⟨rfl, rfl⟩
    · have hdir : find (s ++ [n]) = .directory :=
        hg.below hnil (by rw [hstep]; exact hobj)
      rw [hdir]
      exact hdown

end Walks

section Places

variable {t : Tree} {k l : Location} {follow : Bool}

theorem resolve_direct (hdirect : Direct (look t) l)
    (hlast : follow = true → (look t l).isLink = false)
    (h : resolve t follow (absolute l) = some k) : k = l := by
  have hwalk : ∀ links, walk (look t) follow links [] (l.map .normal) = some k → k = l := by
    intro links
    cases links <;> exact walkWith_direct (s := []) hdirect hlast
  exact hwalk maxLinks h

theorem resolve_reaches (hg : Grounded (look t)) (hobj : t l ≠ none)
    (hlast : follow = true → (look t l).isLink = false) :
    resolve t follow (absolute l) = some l := by
  have hwalk : ∀ links, walk (look t) follow links [] (l.map .normal) = some l := by
    intro links
    cases links <;> exact walkWith_reaches (s := []) hg (mt look_missing.mp hobj) hlast
  exact hwalk maxLinks

theorem objectAt_direct (hg : Grounded (look t)) (hdirect : Direct (look t) l)
    (hlast : follow = true → (look t l).isLink = false) :
    objectAt t follow (absolute l) = (t l).map fun i => (l, i) := by
  cases hobj : t l with
  | some i =>
    exact objectAt_some.mpr ⟨resolve_reaches hg (hobj ▸ Option.some_ne_none i) hlast, hobj⟩
  | none =>
    rw [Option.map_none, Option.eq_none_iff_forall_ne_some]
    rintro ⟨k, i⟩ hfound
    obtain ⟨hk, hi⟩ := objectAt_some.mp hfound
    rw [resolve_direct hdirect hlast hk, hobj] at hi
    cases hi

theorem lstat_direct (hg : Grounded (look t)) (hdirect : Direct (look t) l) :
    lstat t (absolute l) = (t l).map fun i => (l, i) :=
  objectAt_direct hg hdirect fun h => (Bool.false_ne_true h).elim

theorem objectAt_reaches (hg : Grounded (look t)) {i : Inode} (hobj : t l = some i)
    (hlast : follow = true → i.kind.look.isLink = false) :
    objectAt t follow (absolute l) = some (l, i) := by
  refine objectAt_some.mpr ⟨resolve_reaches hg (hobj ▸ Option.some_ne_none i) ?_, hobj⟩
  rwa [look_some hobj]

theorem lstat_reaches (hg : Grounded (look t)) {i : Inode} (hobj : t l = some i) :
    lstat t (absolute l) = some (l, i) :=
  objectAt_reaches hg hobj fun h => (Bool.false_ne_true h).elim

theorem place_direct (hdirect : Direct (look t) l) (h : place t (absolute l) = some k) : k = l :=
  resolve_direct hdirect (fun h => (Bool.false_ne_true h).elim) (place_resolve h)

end Places

/-! The texts of paths -/

structure Name (n : String) : Prop where
  nonempty : n ≠ ""
  current : n ≠ "."
  parent : n ≠ ".."
  plain : '/' ∉ n.toList

def flat (names : List String) : List Char := names.flatMap fun n => '/' :: n.toList

def spell (names : List String) : String := if names = [] then "/" else String.ofList (flat names)

def pathOf (names : List String) : Path := absolute (names.map .text)

section Texts

variable {ns : List String} {n : String}

theorem Name.component (h : Name n) : component n.toList = .normal (.text n) := by
  have hcurrent : n.toList ≠ ['.'] := fun he => h.current (String.toList_inj.mp he)
  have hparent : n.toList ≠ ['.', '.'] := fun he => h.parent (String.toList_inj.mp he)
  rw [OsPaths.component, if_neg hcurrent, if_neg hparent, String.ofList_toList]

theorem Name.segments (h : Name n) : segments n = [n.toList] := by
  have hne : n.toList ≠ [] := fun he => h.nonempty (String.toList_inj.mp he)
  rw [OsPaths.segments, List.splitOn_eq_singleton h.plain, List.filter_cons_of_pos (by simp [hne]),
    List.filter_nil]

theorem segments_flat (h : ∀ m ∈ n :: ns, Name m) :
    segments (.ofList (n.toList ++ flat ns)) = n.toList :: ns.map String.toList := by
  induction ns generalizing n with
  | nil =>
    rw [flat, List.flatMap_nil, List.append_nil, String.ofList_toList]
    exact (h n List.mem_cons_self).segments
  | cons m rest ih =>
    have hrest := ih (n := m) fun k hk => h k (List.mem_cons_of_mem _ hk)
    have hflat : flat (m :: rest) = '/' :: (m.toList ++ flat rest) := rfl
    rw [hflat, segments_append, hrest, String.ofList_toList,
      (h n List.mem_cons_self).segments]
    rfl

theorem components_flat (hne : ns ≠ []) (h : ∀ n ∈ ns, Name n) :
    components (.ofList (flat ns)) = pathOf ns := by
  obtain ⟨n, rest, rfl⟩ := List.exists_cons_of_ne_nil hne
  have hflat : flat (n :: rest) = [] ++ '/' :: (n.toList ++ flat rest) := rfl
  have hsegments : segments (.ofList (flat (n :: rest))) = (n :: rest).map String.toList := by
    rw [hflat, segments_append, segments_flat h]
    rfl
  have hnames : ((n :: rest).map String.toList).map component =
      (n :: rest).map fun m => Component.normal (.text m) := by
    rw [List.map_map]
    exact List.map_congr_left fun m hm => (h m hm).component
  have hkept : ((n :: rest).map fun m => Component.normal (.text m)).filter (· ≠ .curDir) =
      (n :: rest).map fun m => Component.normal (.text m) := by
    refine List.filter_eq_self.mpr fun c hc => ?_
    obtain ⟨m, -, rfl⟩ := List.mem_map.mp hc
    rfl
  rw [components, hsegments, hnames, hkept, if_pos (by rw [String.toList_ofList]; rfl), pathOf,
    absolute, List.map_map]
  rfl

theorem components_spell (h : ∀ n ∈ ns, Name n) : components (spell ns) = pathOf ns := by
  unfold spell
  split
  · rename_i hnil
    subst hnil
    rfl
  · rename_i hne
    exact components_flat hne h

theorem Name.components (h : Name n) : components n = [.normal (.text n)] := by
  have hhead : n.toList.head? ≠ some '/' := fun hh => h.plain (List.mem_of_mem_head? hh)
  rw [OsPaths.components, h.segments, if_neg hhead]
  simp only [List.map_cons, List.map_nil, h.component]
  rfl

theorem flat_append (ns ms : List String) : flat (ns ++ ms) = flat ns ++ flat ms :=
  List.flatMap_append

/-- The handler takes the last name off, and writes the root as `/`. -/
theorem rsplitOnce_spell (h : Name n) :
    ServerRequests.rsplitOnce (spell (ns ++ [n])) = some (.ofList (flat ns), n) := by
  have hlist : (spell (ns ++ [n])).toList.reverse =
      n.toList.reverse ++ '/' :: (flat ns).reverse := by
    rw [spell, if_neg (by simp), String.toList_ofList, flat_append, List.reverse_append]
    simp [flat]
  have hplain : ∀ c ∈ n.toList.reverse, (c ≠ '/' : Bool) = true := fun c hc =>
    decide_eq_true fun he => h.plain (he ▸ List.mem_reverse.mp hc)
  have hdrop : (n.toList.reverse ++ '/' :: (flat ns).reverse).dropWhile (· ≠ '/') =
      '/' :: (flat ns).reverse := by
    rw [List.dropWhile_append_of_pos hplain]
    rfl
  have htake : (n.toList.reverse ++ '/' :: (flat ns).reverse).takeWhile (· ≠ '/') =
      n.toList.reverse := by
    rw [List.takeWhile_append_of_pos hplain]
    simp
  rw [ServerRequests.rsplitOnce, hlist, hdrop, htake]
  simp only [List.reverse_reverse, String.ofList_toList]

theorem components_parent (h : ∀ n ∈ ns, Name n) :
    components (if String.ofList (flat ns) = "" then "/" else .ofList (flat ns)) = pathOf ns := by
  by_cases hnil : ns = []
  · subst hnil
    rfl
  · have hne : String.ofList (flat ns) ≠ "" := by
      obtain ⟨n, rest, rfl⟩ := List.exists_cons_of_ne_nil hnil
      intro he
      have hlist := congrArg String.toList he
      rw [String.toList_ofList] at hlist
      cases hlist
    rw [if_neg hne, components_flat hnil h]

theorem names_absolute (l : List OsString) : names (absolute l) = l := by
  induction l with
  | nil => rfl
  | cons n l ih =>
    simp only [names, absolute, List.map_cons, List.filterMap_cons] at ih ⊢
    rw [ih]

theorem realPath_absolute (root l : List OsString) :
    makeRealPath (absolute root) (absolute l) = absolute (root ++ l) := by
  have hno : Component.parentDir ∉ absolute l := by simp [absolute]
  rw [makeRealPath_absolute hno, names_absolute]

theorem join_absolute (l : List OsString) (n : OsString) :
    (absolute l).join [.normal n] = absolute (l ++ [n]) := by
  rw [Path.join, if_neg (by simp), if_neg (by simp [absolute]), absolute, absolute, List.map_append]
  rfl

end Texts

/-! What a tree shows -/

def shown : Kind → Content
  | .file bytes => .file bytes
  | .directory len => .directory len
  | .symlink target => .symlink target

structure Facts where
  content : Content
  perm : ℕ
  uid : ℕ
  gid : ℕ
  deriving DecidableEq, Repr

def Facts.ofInode (i : Inode) : Facts := ⟨shown i.kind, i.mode, i.uid, i.gid⟩

def Facts.ofMeta (c : Content) (m : Meta) : Facts := ⟨c, m.perm, m.uid, m.gid⟩

def facts (r : Remote) (p : Path) : Option Facts := (r.nodes p).map fun c => .ofMeta c (r.info p)

/-- Below the exported root there is, at the same names, the same. -/
structure Shows (root : Location) (t : Tree) (r : Remote) : Prop where
  home : look t root = .directory
  same : ∀ l, facts r (absolute l) = (t (root ++ l)).map .ofInode

section Shown

variable {root l a b : Location} {t t' : Tree} {r r' : Remote} {i : Inode} {c : Content}
  {m : Meta} {p q : Path} {gone : Meta}

theorem absolute_append (a s : List OsString) :
    absolute (a ++ s) = absolute a ++ s.map .normal := by
  rw [absolute, absolute, List.map_append, List.cons_append]

theorem absolute_inj : absolute a = absolute b ↔ a = b := by
  refine ⟨fun h => ?_, fun h => h ▸ rfl⟩
  rw [← names_absolute a, h, names_absolute]

theorem absolute_prefix_iff : absolute a <+: absolute l ↔ a <+: l := by
  constructor
  · rintro ⟨s, hs⟩
    have hl : names (absolute a ++ s) = names (absolute a) ++ names s := List.filterMap_append
    rw [hs, names_absolute, names_absolute] at hl
    exact ⟨names s, hl.symm⟩
  · rintro ⟨s, rfl⟩
    rw [absolute_append]
    exact List.prefix_append _ _

theorem facts_eq_none : facts r p = none ↔ r.nodes p = none := Option.map_eq_none_iff

theorem Shows.none_iff (h : Shows root t r) :
    r.nodes (absolute l) = none ↔ t (root ++ l) = none := by
  rw [← facts_eq_none, h.same, Option.map_eq_none_iff]

theorem Shows.of_some (h : Shows root t r) (hi : t (root ++ l) = some i) :
    r.nodes (absolute l) = some (shown i.kind) ∧
      Facts.ofMeta (shown i.kind) (r.info (absolute l)) = .ofInode i := by
  have hsame := h.same l
  rw [hi, Option.map_some, facts, Option.map_eq_some_iff] at hsame
  obtain ⟨c, hc, hfacts⟩ := hsame
  have hcontent : c = shown i.kind := congrArg Facts.content hfacts
  subst hcontent
  exact ⟨hc, hfacts⟩

theorem shown_link {k : Kind} : k.look.isLink = true ↔ ∃ target, shown k = .symlink target := by
  cases k <;> simp [Kind.look, Look.isLink, shown]

theorem Shows.isLink (h : Shows root t r)
    (hno : ∀ target, r.nodes (absolute l) ≠ some (.symlink target)) :
    (look t (root ++ l)).isLink = false := by
  cases hi : t (root ++ l) with
  | none =>
    rw [look_missing.mpr hi]
    rfl
  | some i =>
    rw [look_some hi, ← Bool.not_eq_true]
    intro hlink
    obtain ⟨target, htarget⟩ := shown_link.mp hlink
    exact hno target ((h.of_some hi).1.trans (congrArg _ htarget))

theorem facts_update (hn : r'.nodes = Function.update r.nodes p (some c))
    (hi : r'.info = Function.update r.info p m) (q : Path) :
    facts r' q = if q = p then some (.ofMeta c m) else facts r q := by
  unfold facts
  rw [hn, hi]
  by_cases hq : q = p
  · subst hq
    rw [Function.update_self, Function.update_self, if_pos rfl]
    rfl
  · rw [Function.update_of_ne hq, Function.update_of_ne hq, if_neg hq]

theorem Shows.congr (h : Shows root t r) (hn : r'.nodes = r.nodes) (hi : r'.info = r.info) :
    Shows root t r' := by
  refine ⟨h.home, fun l => ?_⟩
  rw [← h.same, facts, facts, hn, hi]

theorem Shows.put (h : Shows root t r) (hl : l ≠ [] ∨ i.kind.look = .directory)
    (ht : t' = Function.update t (root ++ l) (some i))
    (hn : r'.nodes = Function.update r.nodes (absolute l) (some c))
    (hi : r'.info = Function.update r.info (absolute l) m) (hf : Facts.ofMeta c m = .ofInode i) :
    Shows root t' r' := by
  subst ht
  constructor
  · by_cases hnil : l = []
    · subst hnil
      rw [List.append_nil, look_some (Function.update_self ..)]
      exact hl.resolve_left fun hne => hne rfl
    · have hne : root ≠ root ++ l := fun he => hnil (List.self_eq_append_right.mp he)
      rw [look, Function.update_of_ne hne, ← look]
      exact h.home
  · intro k
    rw [facts_update hn hi]
    by_cases hk : k = l
    · subst hk
      rw [if_pos rfl, Function.update_self, Option.map_some, hf]
    · rw [if_neg (mt absolute_inj.mp hk), Function.update_of_ne fun he =>
        hk (List.append_cancel_left he), h.same]

theorem Shows.erase (h : Shows root t r) (hl : l ≠ [])
    (ht : t' = Function.update t (root ++ l) none)
    (hn : r'.nodes = Function.update r.nodes (absolute l) none) (hi : r'.info = r.info) :
    Shows root t' r' := by
  subst ht
  constructor
  · have hne : root ≠ root ++ l := fun he => hl (List.self_eq_append_right.mp he)
    rw [look, Function.update_of_ne hne, ← look]
    exact h.home
  · intro k
    have hsame := h.same k
    unfold facts at hsame ⊢
    rw [hn, hi]
    by_cases hk : k = l
    · subst hk
      rw [Function.update_self, Function.update_self]
      rfl
    · rw [Function.update_of_ne (mt absolute_inj.mp hk), Function.update_of_ne fun he =>
        hk (List.append_cancel_left he), hsame]

theorem apart_below : Apart (root ++ a) (root ++ b) ↔ ¬a <+: b ∧ ¬b <+: a := by
  rw [Apart, List.prefix_append_right_inj, List.prefix_append_right_inj]

theorem Shows.move (h : Shows root t r) (hapart : Apart (root ++ a) (root ++ b))
    (ht : t' = moved t (root ++ a) (root ++ b))
    (hn : r'.nodes = r.nodes.rename (absolute a) (absolute b))
    (hi : r'.info = relocate r.info gone (absolute a) (absolute b)) : Shows root t' r' := by
  subst ht
  obtain ⟨hab, hba⟩ := apart_below.mp hapart
  have hroot : ∀ {k : Location}, k ≠ [] → ¬root ++ k <+: root := by
    intro k hk hp
    have hlen := hp.length_le
    rw [List.length_append] at hlen
    exact hk (List.length_eq_zero_iff.mp (by omega))
  have hane : a ≠ [] := by
    rintro rfl
    exact hab List.nil_prefix
  have hbne : b ≠ [] := by
    rintro rfl
    exact hba List.nil_prefix
  constructor
  · rw [look_moved_other (hroot hane) (hroot hbne)]
    exact h.home
  · intro k
    unfold facts
    rw [hn, hi, Nodes.rename]
    by_cases hk : b <+: k
    · obtain ⟨s, rfl⟩ := hk
      rw [absolute_append, relocate_below, relocate_below, ← absolute_append,
        ← List.append_assoc, moved_new, List.append_assoc]
      exact h.same _
    · by_cases hka : a <+: k
      · have hne : absolute a ≠ absolute b := fun he =>
          hab (absolute_inj.mp he ▸ List.prefix_rfl)
        have hgone : relocate r.nodes none (absolute a) (absolute b) (absolute k) = none :=
          relocate_source hne (mt absolute_prefix_iff.mp hk) (absolute_prefix_iff.mpr hka)
        obtain ⟨s, rfl⟩ := hka
        rw [hgone, ← List.append_assoc, moved_old hapart]
        rfl
      · rw [relocate_other (mt absolute_prefix_iff.mp hk) (mt absolute_prefix_iff.mp hka),
          relocate_other (mt absolute_prefix_iff.mp hk) (mt absolute_prefix_iff.mp hka),
          moved_other (mt (List.prefix_append_right_inj root).mp hka)
            (mt (List.prefix_append_right_inj root).mp hk)]
        exact h.same _

theorem relocateExchange_below {β : Type} (f : Path → β) (a b s : Path) :
    relocateExchange f a b (b ++ s) = f (a ++ s) := by
  rw [relocateExchange, if_pos (List.prefix_append _ _), List.drop_left]

theorem Shows.exchange (h : Shows root t r) (hapart : Apart (root ++ a) (root ++ b))
    (ht : ServerExchange.Exchanged t t' (root ++ a) (root ++ b))
    (hn : r'.nodes = relocateExchange r.nodes (absolute a) (absolute b))
    (hi : r'.info = relocateExchange r.info (absolute a) (absolute b)) : Shows root t' r' := by
  obtain ⟨hab, hba⟩ := apart_below.mp hapart
  have hroot : ∀ {k : Location}, k ≠ [] → ¬root ++ k <+: root := by
    intro k hk hp
    have hlen := hp.length_le
    rw [List.length_append] at hlen
    exact hk (List.length_eq_zero_iff.mp (by omega))
  have hane : a ≠ [] := by
    rintro rfl
    exact hab List.nil_prefix
  have hbne : b ≠ [] := by
    rintro rfl
    exact hba List.nil_prefix
  constructor
  · rw [look, ht.elsewhere root (hroot hane) (hroot hbne), ← look]
    exact h.home
  · intro k
    unfold facts
    rw [hn, hi]
    by_cases hk : b <+: k
    · obtain ⟨s, rfl⟩ := hk
      rw [absolute_append, relocateExchange_below, relocateExchange_below, ← absolute_append,
        ← List.append_assoc, ht.second, List.append_assoc]
      exact h.same _
    · by_cases hka : a <+: k
      · obtain ⟨s, rfl⟩ := hka
        have hfirst : ∀ {β : Type} (f : Path → β),
            relocateExchange f (absolute a) (absolute b) (absolute (a ++ s)) =
              f (absolute (b ++ s)) := by
          intro β f
          rw [relocateExchange, if_neg (mt absolute_prefix_iff.mp hk), absolute_append,
            if_pos (List.prefix_append _ _), List.drop_left, absolute_append]
        rw [hfirst, hfirst, ← List.append_assoc, ht.first, List.append_assoc]
        exact h.same _
      · rw [relocateExchange, if_neg (mt absolute_prefix_iff.mp hk),
          if_neg (mt absolute_prefix_iff.mp hka), relocateExchange,
          if_neg (mt absolute_prefix_iff.mp hk), if_neg (mt absolute_prefix_iff.mp hka),
          ht.elsewhere _ (mt (List.prefix_append_right_inj root).mp hka)
            (mt (List.prefix_append_right_inj root).mp hk)]
        exact h.same _

end Shown

end ServedTree
