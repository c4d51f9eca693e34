import RemoteFs.ServerFileSystem
import Mathlib.Data.Finset.Lattice.Fold

/-! # Exchanging two paths

The exchange is three renames through a temporary name beside the first path. A tree is finite,
so a subtree is no copy of a part of itself and an object that was replaced is missed. -/
namespace ServerExchange

open OsPaths
open PosixTree
open PosixFileTree
open PosixCalls
open ServerPaths
open ServerStorage
open ServerFileSystem

def tempOf (l : Location) : Location :=
  match l.getLast? with
  | none => l
  | some n => l.dropLast ++ [n.withExtension ".swap_tmp"]

section Places

variable {t t' : Tree} {p : Path} {l k : Location} {n : OsString}

theorem tempOf_concat : tempOf (k ++ [n]) = k ++ [n.withExtension ".swap_tmp"] := by
  rw [tempOf, List.getLast?_concat, List.dropLast_concat]

theorem tempOf_apart (hl : l ≠ []) : Apart l (tempOf l) := by
  obtain ⟨k, n, rfl⟩ := (List.eq_nil_or_concat l).resolve_left hl
  rw [List.concat_eq_append, tempOf_concat]
  exact apart_names (OsString.withExtension_ne n rfl).symm

/-- Where the temporary name has a place at all, it is beside the first path. -/
theorem place_temp (hg : Grounded (look t)) (h : place t' (p.withExtension ".swap_tmp") = some k) :
    place t (p.withExtension ".swap_tmp") = (place t p).map tempOf := by
  unfold Path.withExtension at h ⊢
  cases hn : p.fileName with
  | none =>
    dsimp only
    unfold place
    rw [hn]
    rfl
  | some n =>
    rw [hn] at h
    dsimp only at h ⊢
    by_cases hdotted : n.dotted = true
    · rw [if_pos hdotted, place, Path.fileName, List.getLast?_concat] at h
      cases h
    rw [if_neg hdotted]
    have hlast : (Path.child p.dropLast (n.withExtension ".swap_tmp")).fileName =
        some (n.withExtension ".swap_tmp") := fileName_eq_some.mpr (by
      rw [Path.child, List.dropLast_concat])
    rw [place_child hg hn, place_child hg hlast, Path.child, List.dropLast_concat]
    cases directoryAt t p.dropLast with
    | none => rfl
    | some k => exact congrArg some tempOf_concat.symm

/-- A subtree that moves to a free place leaves every path that still leads somewhere. -/
theorem agree_moved {old new : Location} (h : Apart old new) (hfree : ∀ s, t (new ++ s) = none) :
    Agree (look t) (look (moved t old new)) := by
  intro l hl hl'
  rcases moved_cases t h l with ⟨s, rfl, -⟩ | ⟨-, he⟩ | ⟨hold, hnew, -⟩
  · exact (hl (look_missing.mpr (hfree s))).elim
  · exact (hl' (look_missing.mpr he)).elim
  · exact look_moved_other hold hnew

theorem moved_back {old new : Location} (h : Apart old new) (hfree : ∀ s, t (new ++ s) = none) :
    moved (moved t old new) new old = t := by
  funext l
  rcases moved_cases (moved t old new) h.symm l with ⟨s, rfl, he⟩ | ⟨⟨s, rfl⟩, he⟩ | ⟨hn, ho, he⟩
  · rw [he, moved_new]
  · rw [he, hfree]
  · rw [he, moved_other ho hn]

end Places

section Finite

variable {t t' : FileTree} {l u : Location}

/-- No subtree repeats below itself. -/
theorem no_period (h : ∀ s, t.objects (l ++ s) = t.objects (l ++ (u ++ s)))
    (hl : t.objects l ≠ none) : u = [] := by
  by_contra hu
  have hrep : ∀ m, ∃ s, m ≤ s.length ∧ t.objects (l ++ s) ≠ none := by
    intro m
    induction m with
    | zero => exact ⟨[], Nat.zero_le _, by rwa [List.append_nil]⟩
    | succ m ih =>
      obtain ⟨s, hlen, hs⟩ := ih
      refine ⟨u ++ s, ?_, h s ▸ hs⟩
      have := List.length_pos_iff.mpr hu
      rw [List.length_append]
      omega
  obtain ⟨s, hlen, hs⟩ := hrep ((support t).sup List.length + 1)
  have hsup := Finset.le_sup (f := List.length) (mem_support.mpr hs)
  rw [List.length_append] at hsup
  omega

end Finite

/-! How far an exchange gets -/

inductive Ends (t : FileTree) (a b : Path) : Result Unit → Prop where
  | refused (e : StorageError) (h : ∀ t₁, PosixCalls.rename t a (a.withExtension ".swap_tmp") ≠
      .ok t₁) : Ends t a b (.error e, t)
  | parked (e : StorageError) (t₁ : FileTree)
      (h₁ : PosixCalls.rename t a (a.withExtension ".swap_tmp") = .ok t₁)
      (h₂ : ∀ t₂, PosixCalls.rename t₁ b a ≠ .ok t₂) : Ends t a b (.error e, t₁)
  | halfway (e : StorageError) (t₁ t₂ : FileTree)
      (h₁ : PosixCalls.rename t a (a.withExtension ".swap_tmp") = .ok t₁)
      (h₂ : PosixCalls.rename t₁ b a = .ok t₂)
      (h₃ : ∀ t₃, PosixCalls.rename t₂ (a.withExtension ".swap_tmp") b ≠ .ok t₃) :
      Ends t a b (.error e, t₂)
  | finished (t₁ t₂ t₃ : FileTree)
      (h₁ : PosixCalls.rename t a (a.withExtension ".swap_tmp") = .ok t₁)
      (h₂ : PosixCalls.rename t₁ b a = .ok t₂)
      (h₃ : PosixCalls.rename t₂ (a.withExtension ".swap_tmp") b = .ok t₃) :
      Ends t a b (.ok (), t₃)

theorem renameExchange_ends (t : FileTree) (a b : Path) : Ends t a b (renameExchange t a b) := by
  unfold renameExchange
  dsimp only
  cases h₁ : PosixCalls.rename t a (a.withExtension ".swap_tmp") with
  | error e => exact .refused _ (by rw [h₁]; exact fun _ => nofun)
  | ok t₁ =>
    dsimp only
    cases h₂ : PosixCalls.rename t₁ b a with
    | error e => exact .parked _ t₁ h₁ (by rw [h₂]; exact fun _ => nofun)
    | ok t₂ =>
      dsimp only
      cases h₃ : PosixCalls.rename t₂ (a.withExtension ".swap_tmp") b with
      | error e => exact .halfway _ t₁ t₂ h₁ h₂ (by rw [h₃]; exact fun _ => nofun)
      | ok t₃ => exact .finished t₁ t₂ t₃ h₁ h₂ h₃

section Steps

variable {t t₁ t₂ t₃ : FileTree} {a b : Path} {la lb : Location}

/-- The first rename parks the object at the temporary place. -/
theorem parks (h : PosixCalls.rename t a (a.withExtension ".swap_tmp") = .ok t₁) :
    ∃ la, place t.objects a = some la ∧ Renames t la (tempOf la) ∧
      t₁.objects = moved t.objects la (tempOf la) := by
  obtain ⟨la, ln, hla, hln, hcase⟩ := rename_objects h
  have htemp := place_temp t.grounded hln
  rw [hla, hln] at htemp
  obtain rfl := Option.some.inj htemp
  refine ⟨la, hla, ?_⟩
  rcases hcase with ⟨-, hsame, -⟩ | hmoved
  · exact ((tempOf_apart (place_ne_nil t.grounded hla)).ne hsame).elim
  · exact hmoved

theorem parks_at (h : PosixCalls.rename t a (a.withExtension ".swap_tmp") = .ok t₁)
    (hla : place t.objects a = some la) :
    place t.objects (a.withExtension ".swap_tmp") = some (tempOf la) := by
  obtain ⟨-, ln, -, hln, -⟩ := rename_objects h
  rw [place_temp t.grounded hln, hla]
  rfl

theorem rename_ok_of_place {lo ln : Location} {old new : Path} (ho : place t.objects old = some lo)
    (hn : place t.objects new = some ln) (h : Renames t lo ln) :
    ∃ t', PosixCalls.rename t old new = .ok t' ∧ t'.objects = moved t.objects lo ln :=
  ⟨_, rename_eq_ok.mpr ⟨lo, ln, ho, hn, renameAt_eq_ok.mpr (.inr ⟨h, rfl⟩)⟩, rfl⟩

/-- With the temporary place free, nothing stands below it either. -/
theorem free_below {l : Location} (h : t.objects l = none) (s : Location) :
    t.objects (l ++ s) = none := by
  by_cases hs : s = []
  · rwa [hs, List.append_nil]
  · exact FileTree.leaf (fun hdir => FileTree.ne_none_of_directory hdir h) hs

theorem renames_free {lo ln : Location} (hlo : t.objects lo ≠ none) (ha : Apart lo ln)
    (hfree : t.objects ln = none) : Renames t lo ln := by
  refine ⟨hlo, ha, ?_⟩
  obtain ⟨i, hi⟩ := Option.ne_none_iff_exists'.mp hlo
  rw [hi, Option.bind_some, replaceError, hfree]

/-- With the temporary place free, the second rename goes to the place of `a`. -/
theorem fills (hla : place t.objects a = some la) (hr : Renames t la (tempOf la))
    (hfree : t.objects (tempOf la) = none) (ho : t₁.objects = moved t.objects la (tempOf la))
    (h : PosixCalls.rename t₁ b a = .ok t₂) :
    ∃ lb, place t₁.objects b = some lb ∧ place t₁.objects a = some la ∧ Renames t₁ lb la ∧
      t₂.objects = moved t₁.objects lb la := by
  obtain ⟨lb, la', hlb, hla', hcase⟩ := rename_objects h
  have hagree := agree_moved hr.apart (free_below hfree)
  rw [← ho] at hagree
  obtain rfl := place_agree t.grounded t₁.grounded hagree hla hla'
  refine ⟨lb, hlb, hla', ?_⟩
  rcases hcase with ⟨hne, rfl, -⟩ | hmoved
  · rw [ho, moved_at_old hr.apart] at hne
    exact (hne rfl).elim
  · exact hmoved

end Steps

/-! What a failed exchange leaves -/

/-- The first rename fails, or the second takes it back: `b` leads to the free temporary place. -/
def Keeps (t : FileTree) (a b : Path) : Prop :=
  ∀ la lt, place t.objects a = some la →
    place t.objects (a.withExtension ".swap_tmp") = some lt → Renames t la lt →
      t.objects lt = none ∧ place (moved t.objects la lt) a = some la ∧
        place (moved t.objects la lt) b = some lt

section Failed

variable {t : FileTree} {a b : Path}

/-- Two renames that restore the tree: the second takes the first one back. -/
theorem restored {t₁ t₂ : FileTree} {la : Location} (hla : place t.objects a = some la)
    (hr : Renames t la (tempOf la)) (ho : t₁.objects = moved t.objects la (tempOf la))
    (h₂ : PosixCalls.rename t₁ b a = .ok t₂) (he : t₂.objects = t.objects) :
    t.objects (tempOf la) = none ∧ place t₁.objects a = some la ∧
      place t₁.objects b = some (tempOf la) := by
  have hfree : t.objects (tempOf la) = none := by
    by_contra hne
    have hlt := card_replaced hr.apart ho hne
    have hle := rename_card h₂
    rw [support_congr he] at hle
    omega
  obtain ⟨lb, hlb, hla', hr₂, ho₂⟩ := fills hla hr hfree ho h₂
  refine ⟨hfree, hla', ?_⟩
  -- What came back to `la` is what stood below the temporary place, all of it.
  have hgone : t.objects lb = none := by rw [← he, ho₂, moved_at_old hr₂.apart]
  have hobj := hr₂.object
  rw [ho] at hobj
  rcases moved_cases t.objects hr.apart lb with ⟨u, rfl, -⟩ | ⟨-, hnone⟩ | ⟨-, -, hsame⟩
  · have hu : u = [] := by
      refine no_period (t := t) (l := la) (fun s => ?_) hr.object
      calc t.objects (la ++ s) = t₂.objects (la ++ s) := by rw [he]
        _ = t₁.objects (tempOf la ++ (u ++ s)) := by rw [ho₂, moved_new, List.append_assoc]
        _ = t.objects (la ++ (u ++ s)) := by rw [ho, moved_new]
    rw [hlb, hu, List.append_nil]
  · exact (hobj hnone).elim
  · exact (hobj (hsame.trans hgone)).elim

theorem moved_of_keeps {t₁ : FileTree} (h : Keeps t a b)
    (h₁ : PosixCalls.rename t a (a.withExtension ".swap_tmp") = .ok t₁) :
    ∃ t₂, PosixCalls.rename t₁ b a = .ok t₂ ∧ t₂.objects = t.objects ∧
      ∀ t₃, PosixCalls.rename t₂ (a.withExtension ".swap_tmp") b ≠ .ok t₃ := by
  obtain ⟨la, hla, hr, ho⟩ := parks h₁
  obtain ⟨hfree, hla', hlb⟩ := h la _ hla (parks_at h₁ hla) hr
  rw [← ho] at hla' hlb
  have hgone : t₁.objects la = none := by rw [ho, moved_at_old hr.apart]
  have hwaits : t₁.objects (tempOf la) ≠ none := by
    rw [ho, moved_at_new]
    exact hr.object
  obtain ⟨t₂, h₂, ho₂⟩ := rename_ok_of_place hlb hla' (renames_free hwaits hr.apart.symm hgone)
  rw [ho, moved_back hr.apart (free_below hfree)] at ho₂
  refine ⟨t₂, h₂, ho₂, fun t₃ h₃ => ?_⟩
  -- The temporary name is free again, so nothing is left to move to `b`.
  obtain ⟨lo, ln, hlo, -, hcase⟩ := rename_objects h₃
  have htemp := place_temp t₂.grounded hlo
  rw [hlo, ho₂, hla] at htemp
  obtain rfl := Option.some.inj htemp
  rcases hcase with ⟨hne, -⟩ | ⟨hr₃, -⟩
  · exact hne (ho₂ ▸ hfree)
  · exact hr₃.object (ho₂ ▸ hfree)

/-- A failed exchange leaves the tree as it was exactly if its first rename fails or its second
takes the first one back. -/
theorem failed_exchange_keeps_iff (fs : FileSystem) (t : FileTree) (oldPath newPath : Path)
    (flags : RenameFlags) (hx : flags.exchange = true)
    (h : (ServerFileSystem.rename fs t oldPath newPath flags).1 ≠ .ok ()) :
    (ServerFileSystem.rename fs t oldPath newPath flags).2.objects = t.objects ↔
      Keeps t (makeRealPath fs.realPath oldPath) (makeRealPath fs.realPath newPath) := by
  obtain ⟨a, ha⟩ : ∃ a, a = makeRealPath fs.realPath oldPath := ⟨_, rfl⟩
  obtain ⟨b, hb⟩ : ∃ b, b = makeRealPath fs.realPath newPath := ⟨_, rfl⟩
  have hrename : ServerFileSystem.rename fs t oldPath newPath flags = renameExchange t a b := by
    rw [ServerFileSystem.rename, if_pos hx, ha, hb]
  rw [hrename] at h ⊢
  rw [← ha, ← hb]
  have hends := renameExchange_ends t a b
  generalize renameExchange t a b = r at h hends ⊢
  cases hends with
  | refused e hno =>
    refine iff_of_true rfl fun la lt hla hln hr => ?_
    obtain ⟨t₁, h₁, -⟩ := rename_ok_of_place hla hln hr
    exact (hno t₁ h₁).elim
  | parked e t₁ h₁ hno =>
    refine iff_of_false ?_ fun hk => ?_
    · obtain ⟨la, -, hr, ho⟩ := parks h₁
      exact hr.objects_ne ho
    · obtain ⟨t₂, h₂, -⟩ := moved_of_keeps hk h₁
      exact hno t₂ h₂
  | halfway e t₁ t₂ h₁ h₂ hno =>
    constructor
    · intro he la lt hla hlt _
      obtain ⟨la', hla', hr, ho⟩ := parks h₁
      obtain rfl := Option.some.inj (hla'.symm.trans hla)
      obtain rfl := Option.some.inj ((parks_at h₁ hla).symm.trans hlt)
      exact ho ▸ restored hla hr ho h₂ he
    · intro hk
      obtain ⟨t₂', h₂', ho₂, -⟩ := moved_of_keeps hk h₁
      rwa [← Except.ok.inj (h₂.symm.trans h₂')] at ho₂
  | finished t₁ t₂ t₃ h₁ h₂ h₃ => exact (h rfl).elim

end Failed

section Samples

def directoryInode : Inode := ⟨.directory 4096, 0o040755, 0, 0, ⟨0, 0⟩, ⟨0, 0⟩, ⟨0, 0⟩⟩

def fileInode (bytes : List UInt8) : Inode :=
  ⟨.file bytes, 0o100644, 7, 7, ⟨0, 0⟩, ⟨0, 0⟩, ⟨0, 0⟩⟩

def samples : FileTree := .ofList
  [([], directoryInode), ([.text "srv"], directoryInode),
    ([.text "srv", .text "a"], fileInode [1]), ([.text "srv", .text "b.txt"], fileInode [2]),
    ([.text "srv", .text "b..swap_tmp"], fileInode [3])] (by decide) (by decide)

def exported : FileSystem := ⟨absolute [.text "srv"]⟩

def exchange : RenameFlags := .fromBitsTruncate 2

/-- With nothing at the second path the first object ends at the temporary name. -/
theorem failed_exchange_moves_first :
    let r := ServerFileSystem.rename exported samples (components "/a") (components "/c") exchange
    r.1 = .error .notFound ∧ r.2.objects ≠ samples.objects := by
  refine ⟨by decide, fun he => ?_⟩
  have hgone := congrFun he [.text "srv", .text "a"]
  revert hgone
  decide

theorem failed_exchange_taken_back :
    let r := ServerFileSystem.rename exported samples (components "/a")
      (components "/a..swap_tmp") exchange
    r.1 ≠ .ok () ∧ r.2.objects = samples.objects := by
  have hfails : (ServerFileSystem.rename exported samples (components "/a")
      (components "/a..swap_tmp") exchange).1 ≠ .ok () := by decide
  refine ⟨hfails, ?_⟩
  refine (failed_exchange_keeps_iff exported samples (components "/a") (components "/a..swap_tmp")
    exchange rfl hfails).mpr fun la lt hla hlt _ => ?_
  have hplace : place samples.objects (makeRealPath exported.realPath (components "/a")) =
      some [.text "srv", .text "a"] := by decide
  have htemp : place samples.objects ((makeRealPath exported.realPath
      (components "/a")).withExtension ".swap_tmp") =
        some [.text "srv", .text "a..swap_tmp"] := by decide
  obtain rfl := Option.some.inj (hla.symm.trans hplace)
  obtain rfl := Option.some.inj (hlt.symm.trans htemp)
  exact ⟨by decide, by decide, by decide⟩

end Samples

/-! What a successful exchange leaves -/

structure Exchanged (t t' : Tree) (la lb : Location) : Prop where
  first : ∀ s, t' (la ++ s) = t (lb ++ s)
  second : ∀ s, t' (lb ++ s) = t (la ++ s)
  elsewhere : ∀ l, ¬la <+: l → ¬lb <+: l → t' l = t l

section Successful

variable {t t₁ t₂ t₃ : FileTree} {a b : Path} {la : Location}

/-- With the temporary place free, the subtrees at `a` and where `b` led after the first rename
change places. -/
theorem exchanged_of_free (hla : place t.objects a = some la) (hr : Renames t la (tempOf la))
    (hfree : t.objects (tempOf la) = none) (ho : t₁.objects = moved t.objects la (tempOf la))
    (h₂ : PosixCalls.rename t₁ b a = .ok t₂)
    (h₃ : PosixCalls.rename t₂ (a.withExtension ".swap_tmp") b = .ok t₃) :
    ∃ lb, place t₁.objects b = some lb ∧ t.objects lb ≠ none ∧ Apart la lb ∧
      Exchanged t.objects t₃.objects la lb := by
  obtain ⟨lb, hlb, hla', hr₂, ho₂⟩ := fills hla hr hfree ho h₂
  have hgone : ∀ s, t₁.objects (la ++ s) = none := by
    intro s
    rw [ho, moved_old hr.apart]
  have hagree := agree_moved hr₂.apart hgone
  rw [← ho₂] at hagree
  obtain ⟨lt, lb', hlt, hlb', hcase⟩ := rename_objects h₃
  obtain rfl := place_agree t₁.grounded t₂.grounded hagree hlb hlb'
  have hlt₁ := place_temp t₁.grounded hlt
  rw [hla'] at hlt₁
  obtain rfl := place_agree t₁.grounded t₂.grounded hagree hlt₁ hlt
  rcases hcase with ⟨hne, hsame, -⟩ | ⟨hr₃, ho₃⟩
  · rw [hsame, ho₂, moved_at_old hr₂.apart] at hne
    exact (hne rfl).elim
  have hobj := hr₂.object
  rw [ho, moved_other (List.append_nil lb' ▸ hr₂.apart.symm.not_prefix)
    (List.append_nil lb' ▸ hr₃.apart.not_prefix)] at hobj
  refine ⟨lb', hlb, hobj, hr₂.apart.symm, ?_, ?_, ?_⟩
  · intro s
    rw [ho₃, moved_other hr.apart.symm.not_prefix hr₂.apart.not_prefix, ho₂, moved_new, ho,
      moved_other hr₂.apart.symm.not_prefix hr₃.apart.not_prefix]
  · intro s
    rw [ho₃, moved_new, ho₂, moved_other hr₃.apart.symm.not_prefix hr.apart.not_prefix, ho,
      moved_new]
  · intro l hnla hnlb
    by_cases htemp : tempOf la <+: l
    · obtain ⟨s, rfl⟩ := htemp
      rw [ho₃, moved_old hr₃.apart, free_below hfree]
    · rw [ho₃, moved_other htemp hnlb, ho₂, moved_other hnlb hnla, ho, moved_other hnla htemp]

def swapped (la lb l : Location) : Location :=
  if la <+: l then lb ++ l.drop la.length
  else if lb <+: l then la ++ l.drop lb.length
  else l

theorem swapped_swapped {la lb : Location} (h : Apart la lb) (l : Location) :
    swapped la lb (swapped la lb l) = l := by
  have hfirst : ∀ s, swapped la lb (la ++ s) = lb ++ s := by
    intro s
    rw [swapped, if_pos (List.prefix_append _ _), List.drop_left]
  have hsecond : ∀ s, swapped la lb (lb ++ s) = la ++ s := by
    intro s
    rw [swapped, if_neg h.not_prefix, if_pos (List.prefix_append _ _), List.drop_left]
  by_cases hla : la <+: l
  · obtain ⟨s, rfl⟩ := hla
    rw [hfirst, hsecond]
  by_cases hlb : lb <+: l
  · obtain ⟨s, rfl⟩ := hlb
    rw [hsecond, hfirst]
  · have hself : swapped la lb l = l := by rw [swapped, if_neg hla, if_neg hlb]
    rw [hself, hself]

theorem Exchanged.objects_swapped {t t' : Tree} {lb : Location} (h : Exchanged t t' la lb)
    (l : Location) : t' (swapped la lb l) = t l := by
  unfold swapped
  split
  · rename_i hla
    obtain ⟨s, rfl⟩ := hla
    rw [List.drop_left, h.second]
  · rename_i hla
    split
    · rename_i hlb
      obtain ⟨s, rfl⟩ := hlb
      rw [List.drop_left, h.first]
    · rename_i hlb
      exact h.elsewhere l hla hlb

/-- Two subtrees that change places are apart or one and the same. -/
theorem Exchanged.apart {lb : Location} (h : Exchanged t.objects t₁.objects la lb)
    (hla : t.objects la ≠ none) : Apart la lb ∨ la = lb := by
  by_cases hin : la <+: lb
  · obtain ⟨r, rfl⟩ := hin
    have hr : r ++ r = [] := no_period (t := t) (l := la) (fun s => by
      rw [← h.second, List.append_assoc, h.first, List.append_assoc, List.append_assoc]) hla
    rw [(List.append_eq_nil_iff.mp hr).1, List.append_nil]
    exact .inr rfl
  by_cases hin' : lb <+: la
  · obtain ⟨r, rfl⟩ := hin'
    have hlb : t.objects lb ≠ none := by
      by_cases hr : r = []
      · rwa [hr, List.append_nil] at hla
      · exact FileTree.ne_none_of_directory (FileTree.below hr hla)
    have hr : r ++ r = [] := no_period (t := t) (l := lb) (fun s => by
      rw [← h.first, List.append_assoc, h.second, List.append_assoc, List.append_assoc]) hlb
    rw [(List.append_eq_nil_iff.mp hr).1, List.append_nil]
    exact .inr rfl
  · exact .inl ⟨hin, hin'⟩

/-- No object is lost when subtrees change places. -/
theorem Exchanged.card {lb : Location} (h : Exchanged t.objects t₁.objects la lb)
    (hla : t.objects la ≠ none) : (support t).card ≤ (support t₁).card := by
  rcases h.apart hla with ha | rfl
  · refine Finset.card_le_card_of_injOn (swapped la lb) ?_ ?_
    · intro l hl
      refine Finset.mem_coe.mpr (mem_support.mpr ?_)
      rw [h.objects_swapped]
      exact mem_support.mp hl
    · intro l _ k _ heq
      rw [← swapped_swapped ha l, heq, swapped_swapped ha k]
  · have hsame : t₁.objects = t.objects := by
      funext l
      by_cases hl : la <+: l
      · obtain ⟨s, rfl⟩ := hl
        exact h.first s
      · exact h.elsewhere l hl hl
    exact (congrArg Finset.card (support_congr hsame)).ge

end Successful

/-- The two subtrees have changed places and nothing else has changed. -/
def Swaps (t t' : Tree) (a b : Path) : Prop :=
  ∃ la lb, place t a = some la ∧ place t b = some lb ∧ Exchanged t t' la lb

/-- The temporary name is free, and `b` does not need it to lead somewhere. -/
def Clear (t : Tree) (a b : Path) : Prop :=
  (∀ la, place t a = some la → t (tempOf la) = none) ∧ place t b ≠ none

/-- A successful exchange swaps the two subtrees and leaves the rest exactly if the temporary
name was free. -/
theorem exchange_swaps_iff (fs : FileSystem) (t t' : FileTree) (oldPath newPath : Path)
    (flags : RenameFlags) (hx : flags.exchange = true)
    (h : ServerFileSystem.rename fs t oldPath newPath flags = (.ok (), t')) :
    Swaps t.objects t'.objects (makeRealPath fs.realPath oldPath)
        (makeRealPath fs.realPath newPath) ↔
      Clear t.objects (makeRealPath fs.realPath oldPath) (makeRealPath fs.realPath newPath) := by
  obtain ⟨a, ha⟩ : ∃ a, a = makeRealPath fs.realPath oldPath := ⟨_, rfl⟩
  obtain ⟨b, hb⟩ : ∃ b, b = makeRealPath fs.realPath newPath := ⟨_, rfl⟩
  rw [ServerFileSystem.rename, if_pos hx, ← ha, ← hb] at h
  rw [← ha, ← hb]
  have hends := renameExchange_ends t a b
  rw [h] at hends
  cases hends with
  | finished t₁ t₂ _ h₁ h₂ h₃ =>
    obtain ⟨la, hla, hr, ho⟩ := parks h₁
    constructor
    · rintro ⟨la', lb, hla', hlb, hex⟩
      obtain rfl := Option.some.inj (hla'.symm.trans hla)
      refine ⟨fun la'' hla'' => ?_, by rw [hlb]; exact nofun⟩
      obtain rfl := Option.some.inj (hla''.symm.trans hla)
      by_contra hne
      have hlt := card_replaced hr.apart ho hne
      have hle₂ := rename_card h₂
      have hle₃ := rename_card h₃
      have hcard := hex.card hr.object
      omega
    · rintro ⟨hfree, hb⟩
      obtain ⟨lb, hlb⟩ := Option.ne_none_iff_exists'.mp hb
      obtain ⟨lb', hlb', -, -, hex⟩ := exchanged_of_free hla hr (hfree la hla) ho h₂ h₃
      have hagree := agree_moved hr.apart (free_below (hfree la hla))
      rw [← ho] at hagree
      obtain rfl := place_agree t.grounded t₁.grounded hagree hlb hlb'
      exact ⟨la, lb', hla, hlb, hex⟩

/-- A file that has the temporary name is lost. -/
theorem exchange_destroys :
    let r := ServerFileSystem.rename exported samples (components "/b.txt") (components "/a")
      exchange
    r.1 = .ok () ∧ samples.objects [.text "srv", .text "b..swap_tmp"] ≠ none ∧
      r.2.objects [.text "srv", .text "b..swap_tmp"] = none ∧
      ¬Swaps samples.objects r.2.objects (makeRealPath exported.realPath (components "/b.txt"))
        (makeRealPath exported.realPath (components "/a")) := by
  refine ⟨by decide, by decide, by decide, ?_⟩
  rintro ⟨la, lb, hla, hlb, hex⟩
  have ha : place samples.objects (makeRealPath exported.realPath (components "/b.txt")) =
      some [.text "srv", .text "b.txt"] := by decide
  have hb : place samples.objects (makeRealPath exported.realPath (components "/a")) =
      some [.text "srv", .text "a"] := by decide
  obtain rfl := Option.some.inj (hla.symm.trans ha)
  obtain rfl := Option.some.inj (hlb.symm.trans hb)
  have hkept := hex.elsewhere [.text "srv", .text "b..swap_tmp"] (by decide) (by decide)
  revert hkept
  decide

theorem exchange_swaps_samples :
    let r := ServerFileSystem.rename exported samples (components "/a") (components "/b.txt")
      exchange
    r.1 = .ok () ∧ Swaps samples.objects r.2.objects
      (makeRealPath exported.realPath (components "/a"))
      (makeRealPath exported.realPath (components "/b.txt")) := by
  have hok : (ServerFileSystem.rename exported samples (components "/a") (components "/b.txt")
      exchange).1 = .ok () := by decide
  refine ⟨hok, (exchange_swaps_iff exported samples _ (components "/a") (components "/b.txt")
    exchange rfl (Prod.ext hok rfl)).mpr ⟨fun la hla => ?_, by decide⟩⟩
  have hplace : place samples.objects (makeRealPath exported.realPath (components "/a")) =
      some [.text "srv", .text "a"] := by decide
  obtain rfl := Option.some.inj (hla.symm.trans hplace)
  decide

end ServerExchange
