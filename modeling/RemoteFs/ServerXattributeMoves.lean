import RemoteFs.ServerXattributes

/-! # Moving extended attributes from path to path

One statement gives the rows of a path to another path; it fails as a whole if a name is then
held twice. The exchange of two paths is three such statements, through a path of its own. -/
namespace ServerXattributeMoves

open SqlTable
open ServerDatabase
open ServerXattributes

def tmpExchange : String := "__tmp_exchange__"

/-- `UPDATE xattributes SET path = ? WHERE path = ?` -/
def updatePath (t : Xattributes) (newPath path : String) : Result Unit :=
  executeQuery t (t.update (atPath path) fun r => { r with path := newPath })

def exchangeXAttributes (t : Xattributes) (path1 path2 : String) : Result Unit :=
  match updatePath t tmpExchange path1 with
  | (.error e, t₁) => (.error e, t₁)
  | (.ok (), t₁) =>
    match updatePath t₁ path1 path2 with
    | (.error e, t₂) => (.error e, t₂)
    | (.ok (), t₂) => updatePath t₂ path2 tmpExchange

def renameXAttributes (t : Xattributes) (oldPath newPath : String) : Result Unit :=
  updatePath t newPath oldPath

def Held (t : Xattributes) (path : String) : Prop := ∃ r ∈ t.rows, r.path = path

theorem held_iff {t : Xattributes} {path : String} :
    Held t path ↔ ∃ name, attrs t path name ≠ none := by
  constructor
  · rintro ⟨r, hr, hp⟩
    exact ⟨r.name, attrs_ne_none.mpr ⟨r, hr, hp, rfl⟩⟩
  · rintro ⟨name, h⟩
    obtain ⟨r, hr, hp, -⟩ := attrs_ne_none.mp h
    exact ⟨r, hr, hp⟩

/-! What a move does to the map that the table stands for -/

def Clash (a : AttrMap) (path newPath : String) : Prop :=
  path ≠ newPath ∧ ∃ name, a path name ≠ none ∧ a newPath name ≠ none

def pathMoved (a : AttrMap) (newPath path : String) : AttrMap := fun p name =>
  if path = newPath then a p name
  else if p = newPath then (a path name).or (a newPath name)
  else if p = path then none
  else a p name

section Maps

variable {a : AttrMap} {newPath path p : String}

theorem pathMoved_self : pathMoved a path path = a := by
  funext p name
  exact if_pos rfl

theorem pathMoved_new (h : path ≠ newPath) (name : String) :
    pathMoved a newPath path newPath name = (a path name).or (a newPath name) := by
  rw [pathMoved, if_neg h, if_pos rfl]

theorem pathMoved_old (h : path ≠ newPath) (name : String) :
    pathMoved a newPath path path name = none := by
  rw [pathMoved, if_neg h, if_neg h, if_pos rfl]

theorem pathMoved_other (h : p ≠ newPath) (h' : p ≠ path) (name : String) :
    pathMoved a newPath path p name = a p name := by
  rw [pathMoved, if_neg h, if_neg h', ite_self]

end Maps

section Moves

variable {t t' : Xattributes} {newPath path name : String}

theorem sameKey_symm (a b : Row) (h : SameKey a b) : SameKey b a := ⟨h.1.symm, h.2.symm⟩

theorem updatePath_clash (h : Clash (attrs t) path newPath) :
    updatePath t newPath path = (.error (.query .constraint), t) := by
  obtain ⟨hne, name, hold, hnew⟩ := h
  obtain ⟨r, hr, hrp, hrn⟩ := attrs_ne_none.mp hold
  obtain ⟨s, hs, hsp, hsn⟩ := attrs_ne_none.mp hnew
  have hnone : t.update (atPath path) (fun r => { r with path := newPath }) = none := by
    refine Table.update_eq_none sameKey_symm hr hs ?_ ?_
    · rintro rfl
      exact hne (hrp.symm.trans hsp)
    · rw [if_pos (atPath_iff.mpr hrp), if_neg]
      · exact ⟨hsp.symm, hrn.trans hsn.symm⟩
      · rw [atPath_iff, hsp]
        exact hne.symm
  rw [updatePath, hnone]
  rfl

theorem updatePath_rows (h : ¬Clash (attrs t) path newPath) :
    ∃ t', updatePath t newPath path = (.ok (), t') ∧
      t'.rows = t.updated (atPath path) fun r => { r with path := newPath } := by
  have hfree : ∀ r ∈ t.rows, ∀ s ∈ t.rows, r.path = path → s.path ≠ path →
      ¬SameKey { r with path := newPath } s := by
    rintro r hr s hs hrp hsp ⟨hp, hn⟩
    refine h ⟨?_, r.name, attrs_ne_none.mpr ⟨r, hr, hrp, rfl⟩,
      attrs_ne_none.mpr ⟨s, hs, hp.symm, hn.symm⟩⟩
    rintro rfl
    exact hsp hp.symm
  obtain ⟨t', ht, hrows⟩ := Table.update_ok (t := t) (p := atPath path)
    (f := fun r => { r with path := newPath }) fun r hr s hs hc => by
    by_cases hrp : r.path = path
    · rw [if_pos (atPath_iff.mpr hrp)] at hc
      by_cases hsp : s.path = path
      · rw [if_pos (atPath_iff.mpr hsp)] at hc
        exact ⟨hrp.trans hsp.symm, hc.2⟩
      · rw [if_neg (mt atPath_iff.mp hsp)] at hc
        exact (hfree r hr s hs hrp hsp hc).elim
    · rw [if_neg (mt atPath_iff.mp hrp)] at hc
      by_cases hsp : s.path = path
      · rw [if_pos (atPath_iff.mpr hsp)] at hc
        exact (hfree s hs r hr hsp hrp (sameKey_symm _ _ hc)).elim
      · rwa [if_neg (mt atPath_iff.mp hsp)] at hc
  refine ⟨t', ?_, hrows⟩
  rw [updatePath, ht]
  rfl

theorem mem_moved {r : Row}
    (h : t'.rows = t.updated (atPath path) fun r => { r with path := newPath }) :
    r ∈ t'.rows ↔ (r.path = newPath ∧ { r with path := path } ∈ t.rows) ∨
      (r.path ≠ path ∧ r ∈ t.rows) := by
  rw [h, Table.updated, List.mem_map]
  constructor
  · rintro ⟨s, hs, rfl⟩
    by_cases hsp : s.path = path
    · rw [if_pos (atPath_iff.mpr hsp)]
      refine .inl ⟨rfl, ?_⟩
      rwa [← hsp]
    · rw [if_neg (mt atPath_iff.mp hsp)]
      exact .inr ⟨hsp, hs⟩
  · rintro (⟨hp, hr⟩ | ⟨hp, hr⟩)
    · refine ⟨_, hr, ?_⟩
      refine (if_pos (atPath_iff.mpr rfl)).trans ?_
      rw [← hp]
    · refine ⟨r, hr, ?_⟩
      rw [if_neg (mt atPath_iff.mp hp)]

/-- A move of names that do not clash. -/
theorem updatePath_attrs (h : ¬Clash (attrs t) path newPath) :
    ∃ t', updatePath t newPath path = (.ok (), t') ∧
      attrs t' = pathMoved (attrs t) newPath path := by
  obtain ⟨t', ht, hrows⟩ := updatePath_rows h
  refine ⟨t', ht, ?_⟩
  funext p name
  refine Option.ext fun v => ?_
  rw [attrs_eq_some, mem_moved hrows, ← attrs_eq_some, ← attrs_eq_some]
  dsimp only
  unfold pathMoved
  by_cases hsame : path = newPath
  · subst hsame
    rw [if_pos rfl]
    by_cases hp : p = path
    · subst hp
      simp
    · simp [hp]
  rw [if_neg hsame]
  by_cases hp : p = newPath
  · subst hp
    rw [if_pos rfl, Option.or_eq_some_iff]
    constructor
    · rintro (⟨-, hv⟩ | ⟨-, hv⟩)
      · exact .inl hv
      · refine .inr ⟨?_, hv⟩
        by_contra hne
        exact h ⟨hsame, name, hne, by rw [hv]; exact nofun⟩
    · rintro (hv | ⟨-, hv⟩)
      · exact .inl ⟨rfl, hv⟩
      · exact .inr ⟨Ne.symm hsame, hv⟩
  · rw [if_neg hp]
    by_cases hp' : p = path
    · subst hp'
      simp [hsame]
    · simp [hp, hp']

theorem updatePath_self (t : Xattributes) (path : String) :
    updatePath t path path = (.ok (), t) := by
  have hc : ¬Clash (attrs t) path path := fun h => h.1 rfl
  obtain ⟨t', ht, hrows⟩ := updatePath_rows hc
  refine ht.trans (congrArg _ (Table.ext_rows ?_))
  refine hrows.trans ((List.map_congr_left fun r _ => ?_).trans (List.map_id _))
  split
  · rename_i hp
    rw [← atPath_iff.mp hp]
    rfl
  · rfl

theorem updatePath_ok (h : (updatePath t newPath path).1 = .ok ()) :
    ¬Clash (attrs t) path newPath := by
  intro hc
  rw [updatePath_clash hc] at h
  cases h

end Moves

/-! Where the exchange of two paths stops -/

/-- A name is held at the first path and at the temporary one; where the first path is the
temporary one, at both paths. -/
def ExchangeClash (a : AttrMap) (path1 path2 : String) : Prop :=
  Clash a path1 tmpExchange ∨ path1 = tmpExchange ∧ Clash a path2 path1

section Exchanges

variable {t : Xattributes} {path1 path2 : String}

/-- An exchange that fails has changed nothing. -/
theorem exchange_clash (h : ExchangeClash (attrs t) path1 path2) :
    exchangeXAttributes t path1 path2 = (.error (.query .constraint), t) := by
  unfold exchangeXAttributes
  rcases h with h | ⟨rfl, h⟩
  · rw [updatePath_clash h]
  · rw [updatePath_self]
    dsimp only
    rw [updatePath_clash h]

theorem exchange_attrs (h : ¬ExchangeClash (attrs t) path1 path2) :
    ∃ t', exchangeXAttributes t path1 path2 = (.ok (), t') ∧ attrs t' =
      pathMoved (pathMoved (pathMoved (attrs t) tmpExchange path1) path1 path2) path2
        tmpExchange := by
  obtain ⟨h₁, h₂⟩ := not_or.mp h
  obtain ⟨t₁, ht₁, ha₁⟩ := updatePath_attrs h₁
  have hc₂ : ¬Clash (attrs t₁) path2 path1 := by
    rintro ⟨hne, name, hname, hfree⟩
    by_cases htmp : path1 = tmpExchange
    · refine h₂ ⟨htmp, hne, name, ?_⟩
      rw [ha₁, htmp, pathMoved_self] at hname hfree
      exact ⟨hname, htmp ▸ hfree⟩
    · rw [ha₁, pathMoved_old htmp] at hfree
      exact hfree rfl
  obtain ⟨t₂, ht₂, ha₂⟩ := updatePath_attrs hc₂
  have hc₃ : ¬Clash (attrs t₂) tmpExchange path2 := by
    rintro ⟨hne, name, -, hfree⟩
    by_cases hsame : path2 = path1
    · rw [ha₂, hsame, pathMoved_self, ha₁, pathMoved_old (hsame ▸ hne.symm)] at hfree
      exact hfree rfl
    · rw [ha₂, pathMoved_old hsame] at hfree
      exact hfree rfl
  obtain ⟨t₃, ht₃, ha₃⟩ := updatePath_attrs hc₃
  refine ⟨t₃, ?_, ?_⟩
  · rw [exchangeXAttributes, ht₁]
    dsimp only
    rw [ht₂]
    exact ht₃
  · rw [ha₃, ha₂, ha₁]

end Exchanges

end ServerXattributeMoves
