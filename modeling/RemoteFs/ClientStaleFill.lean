import RemoteFs.ClientFillSteps
import RemoteFs.ClientRenameCoherence

/-! # A call that fills the cache and one that changes the server, on the same path

Before the changing call has been to the cache, what the cache tells may be what the server had
before the change or what it has now. The step in which the call goes to the cache puts that
right, unless it leaves something in place or the other call still has old data in hand. -/
namespace ClientStaleFill

open ClientAttributes
open ClientCache
open ClientCallSteps
open ClientDirectoryListing
open ClientFileSystem
open ClientFillSteps
open ClientKnowledge
open ClientKnowledgeReads
open ClientMemory
open ClientPageCache
open ClientReadBuffer
open ClientRenameCoherence
open ClientWriteBuffer
open Interleaving
open OsPaths
open RemoteTree
open WriteLog

variable {L : PageLimits}

def Involves : Mutator → Path → Prop
  | .flush w, q => q = w.key
  | .createFile p _ _, q => q = p
  | .setAttributes p _, q => q = p
  | .remove p, q => q = p
  | .rename a b _, q => q = a ∨ q = b

def DealsWith (fs : FileSystem L) (p : Path) : Change L → Prop
  | .written w => w.key = p
  | .created q _ => q = p
  | .attributes q _ => q = p
  | .removed q => q = p
  | .taken a b => a = p ∨ b = p ∧ (held fs a = none ∨ b.fileName = none)
  | .carried q _ => q = p

/-- It leaves the item where it is: nothing is put under a path without a final name, and a
rename that has found nothing at the old path leaves the new one alone. -/
def LeavesItem (p : Path) : Change L → Prop
  | .removed _ => False
  | .taken a _ => a ≠ p
  | .carried _ _ => False
  | _ => p.fileName = none

def ChangeFits (fs : FileSystem L) (p : Path) (c : Change L) : Prop :=
  (LeavesItem p c → ∀ it, held fs p = some it → IsCurrent fs.remote p it) ∧
  match c with
  | .written w => UploadFits fs w fs.remote
  | .attributes _ _ => ∀ f, held fs p = some (.file f) → BytesAre (fs.remote.Holds p) f
  | _ => True

/-- What remains of the call puts nothing for the path but what the server has now, in whatever
state with this server, with only that in the cache, and no more in the read buffer than now. -/
def NothingOldInHand {α : Type} (p : Path) (t : ℕ) (fs : FileSystem L) (rest : Steps L α) : Prop :=
  rest.Meets (Known (· = fs.remote) (· = p) p t fun x v =>
      fs.readBuffer.byteAt t p x = some v ∨ fs.remote.Holds p x v)
    (Told (· = fs.remote) (· = p) p) fun _ => True

abbrev Calls (L : PageLimits) : Type :=
  Pair (FileSystem L) (Effect L) (Except FsModelError Unit) (Except FsModelError Unit)

def EffectFits (p : Path) (t : ℕ) (c : Calls L) : Effect L → Prop
  | .change ch _ => DealsWith c.state p ch →
      ChangeFits c.state p ch ∧ NothingOldInHand p t c.state c.first
  | e => GapsFit p c.state e

/-! What the steps in the cache make of an item -/

section Changes

variable {S : Remote → Prop} {fs : FileSystem L} {p : Path} {c : Change L} {r : Remote} {m : Moment}
  {now : Timestamp}

theorem leaves_current (hfit : ChangeFits fs p c) (hl : LeavesItem p c)
    (hsame : ∀ cache : Cache L, c.apply m cache = cache) :
    Entries (fs.onCache fun cache => c.apply m cache) p 0 (IsCurrent fs.remote p) := by
  have hnothing : (fun cache : Cache L => c.apply m cache) = fun cache => cache := funext hsame
  rw [hnothing]
  exact Entries.onCache_sub (hfit.1 hl) Cache.Sub.refl

theorem written_current {w : Chunk} (hold : Entries fs w.key 0 (Recalls S w.key))
    (hw : r.writeFile w.key w.offset w.data now = some fs.remote)
    (hfit : ChangeFits fs w.key (.written w)) :
    Entries (fs.onCache fun cache => (Change.written w).apply m cache) w.key 0
      (IsCurrent fs.remote w.key) := by
  by_cases hname : w.key.fileName = none
  · refine leaves_current hfit hname fun cache => ?_
    rw [Change.apply, cacheWriteFile, hname]
  · refine tells_cacheWriteFile hname (fun _ => trivial) (fun _ => trivial) hold
      (fun _ => trivial) (fun _ => trivial) (fun _ x b hx hb => ?_)
      (fun f x b he => (hfit.2 f he).1 x b) (fun f he => (hfit.2 f he).2) (fun _ _ hn => hn)
      fun h => (Bool.false_ne_true h.symm).elim
    have hget : w.get w.key x = some b := by
      rw [Write.get, if_pos ⟨rfl, hx⟩]
      exact hb
    exact Remote.writeFile_holds hget hw

/-- A new item without pages, of attributes that are the server's. -/
theorem isCurrent_bare {it : CacheItem L} {a : Attributes} (ha : r.getAttributes p = some a)
    (hb : Bare it) (hattr : it.getAttributes = some a) (hnames : namesOf it = none)
    (htarget : targetOf it = none) : IsCurrent r p it where
  toGood := good_bare bytesAre_aboutPages hb fun b hbattr =>
    ha.trans (hattr.symm.trans hbattr)
  fresh := trivial
  itemType := trivial
  name := trivial
  children names hn := by cases hnames.symm.trans hn
  target s hs := by cases htarget.symm.trans hs

theorem put_current {item : CacheItem L} (h : IsCurrent fs.remote p item) :
    Entries (fs.onCache fun cache => cache.putNew p item m) p 0 (IsCurrent fs.remote p) := by
  intro it he
  obtain ⟨cache, -, hfresh⟩ := entry_onCache he
  rw [Cache.putNew_self hfresh]
  exact h

theorem created_current {a : Attributes} (ha : fs.remote.getAttributes p = some a)
    (hfit : ChangeFits fs p (.created p a)) :
    Entries (fs.onCache fun cache => (Change.created p a).apply m cache) p 0
      (IsCurrent fs.remote p) := by
  cases hname : p.fileName with
  | none =>
    refine leaves_current hfit hname fun cache => ?_
    rw [Change.apply, hname]
  | some name =>
    simp only [Change.apply, hname]
    exact put_current (isCurrent_bare ha (bare_new name _) rfl rfl rfl)

/-- The attributes are new; the child names and the target are those of before. -/
theorem attributes_current {new : SetAttr} {a : Attributes}
    (hS : ∀ r', S r' → r' = r ∨ r' = fs.remote) (hold : Entries fs p 0 (Recalls S p))
    (hset : r.setAttributes p new now = some fs.remote) (ha : fs.remote.getAttributes p = some a)
    (hfit : ChangeFits fs p (.attributes p a)) :
    Entries (fs.onCache fun cache => (Change.attributes p a).apply m cache) p 0
      (IsCurrent fs.remote p) := by
  cases hname : p.fileName with
  | none =>
    refine leaves_current hfit hname fun cache => ?_
    rw [Change.apply, cachePutAttr, hname]
  | some name =>
    obtain ⟨hb, hattr⟩ := bare_ofAttributes (L := L) name a
    obtain ⟨hnames, htarget, -⟩ := silent_ofAttributes (L := L) name a
    have hput : (fun cache : Cache L => (Change.attributes p a).apply m cache) = fun cache =>
        cache.put p (.ofAttributes name a) false m := by
      funext cache
      rw [Change.apply, cachePutAttr, hname]
    have hnew : IsCurrent fs.remote p (.ofAttributes name a : CacheItem L) :=
      isCurrent_bare ha hb hattr hnames htarget
    rw [hput]
    refine put_entry_self (fun _ _ => hnew) fun old he => ?_
    have hsilent : (CacheItem.ofAttributes name a : CacheItem L).getAttributes ≠ none := by
      rw [hattr]
      exact Option.some_ne_none _
    refine update_tells (hold old he) hnew (fun _ hn => hn) ?_ (fun hnone => (hsilent hnone).elim)
      (fun _ names hn => ?_) fun _ s hs => ?_
    · exact update_bare_file bytesAre_aboutPages (fun f hf => hfit.2 f (hf ▸ he)) hb
    · obtain ⟨r', hr', ⟨len, hdir⟩, hchildren⟩ := hn
      rcases hS r' hr' with rfl | rfl
      · refine ⟨⟨len, Remote.setAttributes_directory hset hdir⟩, hchildren.1, fun name => ?_⟩
        rw [(Remote.setAttributes_agrees (p.ne_child name) hset).nodes]
        exact hchildren.2 name
      · exact ⟨⟨len, hdir⟩, hchildren⟩
    · obtain ⟨r', hr', hlink⟩ := hs
      rcases hS r' hr' with rfl | rfl
      · exact (Remote.setAttributes_readSymlink hset).trans hlink
      · exact hlink

/-- Nothing is left where something has been taken out, and nothing is new elsewhere. -/
theorem removed_current {q : Path}
    (hleft : q ≠ p → ∀ it, held fs p = some it → IsCurrent fs.remote p it) :
    Entries (fs.onCache fun cache => (cache.remove q).2) p 0 (IsCurrent fs.remote p) := by
  intro it he
  obtain ⟨cache, hcache, hfresh⟩ := entry_onCache he
  by_cases hq : q = p
  · exact ((Cache.remove_gone hfresh).1 hq.symm).elim
  · refine hleft hq it (Option.bind_eq_some_iff.mpr ⟨cache, hcache, ?_⟩)
    exact Cache.remove_sub cache q p 0 it hfresh

theorem moved_implies {r' : Remote} {a b : Path} (h : r.MovedTo a r' b) :
    (current r a).Implies (current r' b) where
  fresh := id
  itemType _ := id
  name _ := id
  attributes _ ha := h.getAttributes.trans ha
  children names := by
    rintro ⟨⟨len, hdir⟩, hchildren⟩
    exact ⟨⟨len, h.nodes_self.trans hdir⟩, children_moved h ▸ hchildren⟩
  target _ hs := h.readSymlink.trans hs

/-- Of a path where there is nothing, nothing is told. -/
theorem gone_implies {r' : Remote} {a b : Path} (h : r.nodes a = none) :
    (current r a).Implies (current r' b) where
  fresh := id
  itemType _ := id
  name _ := id
  attributes x hx := by
    change r.getAttributes a = some x at hx
    rw [Remote.getAttributes, h] at hx
    cases hx
  children names := by
    rintro ⟨⟨len, hdir⟩, -⟩
    cases h.symm.trans hdir
  target s hs := by
    change r.readSymlink a = some s at hs
    rw [Remote.readSymlink, h] at hs
    cases hs

/-- The item that is carried over tells, under the new path, what the server has there now. -/
theorem carried_current {r' : Remote} {a b : Path} {flags : RenameFlags} {old : CacheItem L}
    {name : OsString} (hS : ∀ s, S s → s = r ∨ s = r') (h : Recalls S a old)
    (hren : r.rename a b flags = some r') (hflag : flags.exchange = false) :
    IsCurrent r' b (old.rename name) := by
  have hboth : ∀ s, S s → (current s a).Implies (current r' b) ∧
      ∀ x v, s.Holds a x v → r'.Holds b x v := by
    intro s hs
    rcases hS s hs with rfl | rfl
    · have hmoved := Remote.rename_movedTo hren hflag
      refine ⟨moved_implies hmoved, ?_⟩
      rintro x v ⟨bytes, hnode, hv⟩
      exact ⟨bytes, hmoved.nodes_self.trans hnode, hv⟩
    · by_cases hab : a = b
      · subst hab
        exact ⟨⟨id, fun _ => id, fun _ => id, fun _ => id, fun _ => id, fun _ => id⟩,
          fun _ _ => id⟩
      · have hgone : s.nodes a = none := by
          rcases (Remote.rename_cases hren).2 with ⟨hexchange, -⟩ | ⟨-, -, hne, rfl⟩
          · cases hflag.symm.trans hexchange
          · exact relocate_source hab (hne.resolve_left hab).2 (List.prefix_refl a)
        refine ⟨gone_implies hgone, ?_⟩
        rintro x v ⟨bytes, hnode, -⟩
        cases hgone.symm.trans hnode
  refine renamed_tells h trivial trivial ?_ (fun _ => id) ?_ ?_ ?_
  · intro f g hsame hf x v hx
    rw [hsame.byteAt] at hx
    obtain ⟨s, hs, hv⟩ := hf x v hx
    exact (hboth s hs).2 x v hv
  · rintro x ⟨s, hs, hx⟩
    exact (hboth s hs).1.attributes x hx
  · rintro names ⟨s, hs, hn⟩
    exact (hboth s hs).1.children names hn
  · rintro target ⟨s, hs, ht⟩
    exact (hboth s hs).1.target target ht

end Changes

/-! The two calls together -/

def Served (mutator : Mutator) (t : Tick) (r : Remote) : Remote → Prop :=
  fun s => s = r ∨ ∃ c, mutator.granted t r = .ok (c, s)

structure Settles (S : Remote → Prop) (inv : Path → Prop) (p : Path) (r : Remote)
    (c : Change L) (m : Moment) : Prop where
  deals : ∀ fs, DealsWith fs p c
  current : ∀ fs : FileSystem L, fs.remote = r → (∀ q, inv q → Entries fs q 0 (Recalls S q)) →
    ChangeFits fs p c → Entries (fs.onCache fun cache => c.apply m cache) p 0 (IsCurrent r p)

inductive Phase (p : Path) (t : ℕ) (mutator : Mutator) (env : Env) (r : Remote) :
    Calls L → Prop where
  | before (first : Steps L (Except FsModelError Unit)) (fs : FileSystem L) (hr : fs.remote = r)
      (h : Known (Served mutator (env 0) r) (Involves mutator) p t
        (heldBy (Served mutator (env 0) r) p) fs)
      (hrest : Fills (Served mutator (env 0) r) (Involves mutator) p t first fun _ => True) :
      Phase p t mutator env r ⟨first, mutator.steps env, fs⟩
  | waiting (first : Steps L (Except FsModelError Unit)) (fs : FileSystem L) (c : Change L)
      (m : Moment)
      (hsettles : Settles (Served mutator (env 0) r) (Involves mutator) p fs.remote c m)
      (h : Known (Served mutator (env 0) r) (Involves mutator) p t
        (heldBy (Served mutator (env 0) r) p) fs)
      (hrest : Fills (Served mutator (env 0) r) (Involves mutator) p t first fun _ => True) :
      Phase p t mutator env r ⟨first, changeLast c m, fs⟩
  | moving (first : Steps L (Except FsModelError Unit)) (fs : FileSystem L) (a b : Path)
      (flags : RenameFlags) (m : Moment) (hm : mutator = .rename a b flags)
      (hren : r.rename a b flags = some fs.remote)
      (hS : ∀ s, Served mutator (env 0) r s → s = r ∨ s = fs.remote)
      (h : Known (Served mutator (env 0) r) (Involves mutator) p t
        (heldBy (Served mutator (env 0) r) p) fs)
      (hrest : Fills (Served mutator (env 0) r) (Involves mutator) p t first fun _ => True) :
      Phase p t mutator env r ⟨first, renameSteps a b flags m, fs⟩
  | settled (first second : Steps L (Except FsModelError Unit)) (fs : FileSystem L)
      (S : Remote → Prop) (inv : Path → Prop) (P : ℕ → UInt8 → Prop)
      (hS : ∀ s, S s → s = fs.remote) (hp : inv p) (hP : ∀ x v, heldBy S p x v → P x v)
      (h : Known S inv p t P fs)
      (hfirst : first.Meets (Known S inv p t P) (Told S inv p) fun _ => True)
      (hsecond : second.Meets (Known S inv p t P) (Told S inv p) fun _ => True) :
      Phase p t mutator env r ⟨first, second, fs⟩

section Phases

variable {S : Remote → Prop} {inv : Path → Prop} {p : Path} {t : ℕ} {P : ℕ → UInt8 → Prop}
  {mutator : Mutator} {env : Env} {r : Remote} {c : Calls L}

theorem gapsFit_of_told {e : Effect L} (he : Told S inv p e) (hfit : EffectFits p t c e) :
    GapsFit p c.state e := by
  cases e with
  | put q item m => exact hfit
  | _ => trivial

theorem phase_first {effect : FileSystem L → Effect L}
    {next : FileSystem L → Steps L (Except FsModelError Unit)} (h : Phase p t mutator env r c)
    (hstep : c.first = .step effect next) (hfit : EffectFits p t c (effect c.state)) :
    Phase p t mutator env r
      ⟨next c.state, c.second, (effect c.state).apply c.state⟩ := by
  cases h with
  | before first fs hr h hrest =>
    change first = _ at hstep
    subst hstep
    obtain ⟨htold, hnext⟩ := hrest fs h
    exact .before _ _ ((told_remote htold).trans hr)
      (h.told htold (gapsFit_of_told htold hfit) fun _ _ => id) hnext
  | waiting first fs ch m hsettles h hrest =>
    change first = _ at hstep
    subst hstep
    obtain ⟨htold, hnext⟩ := hrest fs h
    refine .waiting _ _ ch m ?_ (h.told htold (gapsFit_of_told htold hfit) fun _ _ => id) hnext
    rw [told_remote htold]
    exact hsettles
  | moving first fs a b flags m hm hren hS h hrest =>
    change first = _ at hstep
    subst hstep
    obtain ⟨htold, hnext⟩ := hrest fs h
    have hsame : (Effect.apply _ fs).remote = fs.remote := told_remote htold
    exact .moving _ _ a b flags m hm (hsame.symm ▸ hren) (hsame.symm ▸ hS)
      (h.told htold (gapsFit_of_told htold hfit) fun _ _ => id) hnext
  | settled first second fs S inv P hS hp hP h hfirst hsecond =>
    change first = _ at hstep
    subst hstep
    obtain ⟨htold, hnext⟩ := hfirst fs h
    refine .settled _ _ _ S inv P ?_ hp hP
      (h.told htold (gapsFit_of_told htold hfit) hP) hnext hsecond
    rw [told_remote htold]
    exact hS

theorem phase_settled {first second : Steps L (Except FsModelError Unit)} {fs : FileSystem L}
    {ch : Change L} {m : Moment} (hclean : NothingOldInHand p t fs first)
    (hafter : Entries (fs.onCache fun cache => ch.apply m cache) p 0 (IsCurrent fs.remote p))
    (hsecond : second.Meets (Known (· = fs.remote) (· = p) p t fun x v =>
      fs.readBuffer.byteAt t p x = some v ∨ fs.remote.Holds p x v)
        (Told (· = fs.remote) (· = p) p) fun _ => True) :
    Phase p t mutator env r ⟨first, second, fs.onCache fun cache => ch.apply m cache⟩ := by
  refine .settled first second _ (· = fs.remote) (· = p) _ (fun _ => id) rfl ?_ ?_ hclean hsecond
  · rintro x v ⟨s, rfl, hv⟩
    exact Or.inr hv
  · refine ⟨rfl, ?_, fun x v hx => Or.inl hx⟩
    rintro q rfl it hit
    exact (hafter it hit).recalls rfl

theorem phase_granted {first : Steps L (Except FsModelError Unit)} {fs : FileSystem L} {g : Grant}
    {m : Moment} (hp : Involves mutator p) (hg : mutator.granted (env 0) r = .ok (g, fs.remote))
    (h : Known (Served mutator (env 0) r) (Involves mutator) p t
      (heldBy (Served mutator (env 0) r) p) fs)
    (hrest : Fills (Served mutator (env 0) r) (Involves mutator) p t first fun _ => True) :
    Phase p t mutator env r ⟨first, g.steps m, fs⟩ := by
  have hS : ∀ s, Served mutator (env 0) r s → s = r ∨ s = fs.remote := by
    rintro s (rfl | ⟨g', hs⟩)
    · exact Or.inl rfl
    · rw [hg] at hs
      injection hs with hs
      injection hs with _ hs
      exact Or.inr hs.symm
  have hgranted := granted_of_ok hg
  cases hgranted with
  | flush hw =>
    subst hp
    refine .waiting first fs _ m ⟨fun _ => rfl, fun fs' hr hold hfit => ?_⟩ h hrest
    rw [← hr] at hw ⊢
    exact written_current (hold _ rfl) hw hfit
  | createFile _ ha =>
    subst hp
    refine .waiting first fs _ m ⟨fun _ => rfl, fun fs' hr hold hfit => ?_⟩ h hrest
    rw [← hr] at ha ⊢
    exact created_current ha hfit
  | setAttributes hset ha =>
    subst hp
    refine .waiting first fs _ m ⟨fun _ => rfl, fun fs' hr hold hfit => ?_⟩ h hrest
    rw [← hr] at hset ha hS ⊢
    exact attributes_current hS (hold _ rfl) hset ha hfit
  | remove _ =>
    subst hp
    refine .waiting first fs _ m ⟨fun _ => rfl, fun fs' hr _ _ => ?_⟩ h hrest
    rw [← hr]
    exact removed_current fun hne => (hne rfl).elim
  | rename hren => exact .moving first fs _ _ _ m rfl hren hS h hrest

/-- What a rename takes out is what was cached at the old path. -/
theorem taken_eq (fs : FileSystem L) (a : Path) :
    (fs.cache.bind fun c => (c.remove a).1) = held fs a := by
  unfold held entry
  cases fs.cache with
  | none => rfl
  | some c => exact (c.freshAt_zero a).symm

theorem phase_moving {first : Steps L (Except FsModelError Unit)} {fs : FileSystem L}
    {a b : Path} {flags : RenameFlags} {m : Moment} {effect : FileSystem L → Effect L}
    {next : FileSystem L → Steps L (Except FsModelError Unit)}
    (hp : p = a ∨ p = b) (hren : r.rename a b flags = some fs.remote)
    (hm : mutator = .rename a b flags)
    (hS : ∀ s, Served mutator (env 0) r s → s = r ∨ s = fs.remote)
    (h : Known (Served mutator (env 0) r) (Involves mutator) p t
      (heldBy (Served mutator (env 0) r) p) fs)
    (hrest : Fills (Served mutator (env 0) r) (Involves mutator) p t first fun _ => True)
    (hstep : renameSteps a b flags m = .step effect next)
    (hfit : EffectFits p t ⟨first, renameSteps a b flags m, fs⟩ (effect fs)) :
    Phase p t mutator env r ⟨first, next fs, (effect fs).apply fs⟩ := by
  have hold : Entries fs a 0 (Recalls (Served mutator (env 0) r) a) :=
    h.entries a (hm ▸ Or.inl rfl)
  unfold renameSteps at hstep
  split at hstep
  · injection hstep with heffect hnext
    subst heffect hnext
    rcases hp with rfl | rfl
    · exact phase_settled (hfit rfl).2 (removed_current fun hne => (hne rfl).elim)
        fun _ _ => ⟨trivial, trivial⟩
    · have hafter := h.told (e := .change (.removed a) m) trivial trivial fun _ _ => id
      refine .waiting first _ (.removed p) m ⟨fun _ => rfl, fun fs' hr _ _ => ?_⟩ hafter hrest
      rw [← hr]
      exact removed_current fun hne => (hne rfl).elim
  · rename_i hflag
    have hcarried : ∀ {old : CacheItem L} {name : OsString}, held fs a = some old →
        IsCurrent fs.remote b (old.rename name) := fun hheld =>
      carried_current hS (hold _ hheld) hren (Bool.eq_false_iff.mpr hflag)
    injection hstep with heffect hnext
    subst heffect hnext
    dsimp only
    rw [taken_eq]
    rcases hp with rfl | rfl
    · refine phase_settled (hfit (Or.inl rfl)).2 (removed_current fun hne => (hne rfl).elim) ?_
      split
      · rename_i name item _ hheld
        refine fun _ _ => ⟨?_, trivial⟩
        rintro rfl
        exact (hcarried hheld).recalls rfl
      · trivial
    · split
      · rename_i name item _ hheld
        have hafter := h.told (e := .change (.taken a p) m) trivial trivial fun _ _ => id
        refine .waiting first _ (.carried p (item.rename name)) m
          ⟨fun _ => rfl, fun fs' hr _ _ => ?_⟩ hafter hrest
        have hput : IsCurrent fs'.remote p (item.rename name) := hr.symm ▸ hcarried hheld
        rw [← hr]
        exact put_current hput
      · rename_i hnone
        have hleft : held fs a = none ∨ p.fileName = none := by
          by_contra hboth
          simp only [not_or] at hboth
          obtain ⟨item, hitem⟩ := Option.ne_none_iff_exists'.mp hboth.1
          obtain ⟨name, hname⟩ := Option.ne_none_iff_exists'.mp hboth.2
          exact hnone name item hname hitem
        obtain ⟨hchange, hclean⟩ := hfit (Or.inr ⟨rfl, hleft⟩)
        exact phase_settled hclean (removed_current hchange.1) trivial

theorem phase_second {effect : FileSystem L → Effect L}
    {next : FileSystem L → Steps L (Except FsModelError Unit)} (h : Phase p t mutator env r c)
    (hp : Involves mutator p) (hstep : c.second = .step effect next)
    (hfit : EffectFits p t c (effect c.state)) :
    Phase p t mutator env r
      ⟨c.first, next c.state, (effect c.state).apply c.state⟩ := by
  cases h with
  | before first fs hr h hrest =>
    change mutator.steps env = _ at hstep
    unfold Mutator.steps at hstep
    injection hstep with heffect hnext
    subst heffect hnext hr
    dsimp only
    cases hg : mutator.granted (env 0) fs.remote with
    | error e =>
      refine .settled first (.pure (.error e)) fs _ _ _ ?_ hp (fun _ _ => id) h hrest trivial
      rintro s (rfl | ⟨g, hs⟩)
      · rfl
      · cases hg.symm.trans hs
    | ok granted =>
      obtain ⟨g, r⟩ := granted
      exact phase_granted hp hg ⟨Or.inr ⟨g, hg⟩, h.entries, h.buffer⟩ hrest
  | waiting first fs ch m hsettles h hrest =>
    change changeLast ch m = _ at hstep
    unfold changeLast at hstep
    injection hstep with heffect hnext
    subst heffect hnext
    obtain ⟨hchange, hclean⟩ := hfit (hsettles.deals fs)
    exact phase_settled hclean (hsettles.current fs rfl h.entries hchange) trivial
  | moving first fs a b flags m hm hren hS h hrest =>
    subst hm
    exact phase_moving hp hren rfl hS h hrest hstep hfit
  | settled first second fs S inv P hS hinv hP h hfirst hsecond =>
    change second = _ at hstep
    subst hstep
    obtain ⟨htold, hnext⟩ := hsecond fs h
    refine .settled _ _ _ S inv P ?_ hinv hP
      (h.told htold (gapsFit_of_told htold hfit) hP) hfirst hnext
    rw [told_remote htold]
    exact hS

theorem Phase.current {res : Except FsModelError Unit} (h : Phase p t mutator env r c)
    (hres : c.second = .pure res) :
    ∀ it, held c.state p = some it → IsCurrent c.state.remote p it := by
  cases h with
  | before first fs hr h hrest => cases hres
  | waiting first fs ch m hsettles h hrest => cases hres
  | moving first fs a b flags m hm hren hS h hrest =>
    change renameSteps a b flags m = _ at hres
    unfold renameSteps at hres
    split at hres <;> cases hres
  | settled first second fs S inv P hS hp hP h hfirst hsecond =>
    exact fun it hit => (h.entries p hp it hit).isCurrent hS

end Phases

/-! Old data in hand -/

section InHand

variable {p : Path} {t : ℕ} {fs : FileSystem L} {env : Env}

/-- What has been fetched and is still to be put is old unless the server has it now. -/
theorem nothingOldInHand_put {item : CacheItem L} {m : Moment} {res : Except FsModelError Unit} :
    NothingOldInHand p t fs (.step (fun _ => .put p item m) fun _ => .pure res) ↔
      IsCurrent fs.remote p item := by
  constructor
  · intro h
    obtain ⟨htold, -⟩ := h { fs with cache := none }
      ⟨rfl, fun _ _ _ hit => (nomatch hit), fun _ _ hx => Or.inl hx⟩
    exact (htold rfl).1.isCurrent fun _ => id
  · exact fun h _ _ => ⟨fun hq => ⟨h.recalls rfl, fun hne => (hne rfl).elim⟩, trivial⟩

/-- A call that has not begun has nothing in hand, but it may read the read buffer. -/
theorem nothingOldInHand_start (filler : Filler) (ht : ∀ i, t ≤ (env i).now)
    (hlist : filler = .readdir → ListsAll fs.remote p env)
    (hbuffer : BufferIs fs p t (fs.remote.Holds p)) :
    NothingOldInHand p t fs (filler.steps p env) := by
  refine (filler_fills filler ht fun hf r hr => hr ▸ hlist hf).mono (fun s hs => ?_)
    (fun _ => id) fun _ => id
  refine ⟨hs.remote, hs.entries, fun x v hx => ⟨fs.remote, rfl, ?_⟩⟩
  exact (hs.buffer x v hx).elim (hbuffer x v) id

end InHand

/-- A filling and a changing call on the path, with their steps in any order: if no put leaves
gaps that are not so, and if the changing call, when it is done with the cached item, leaves
nothing of it that is not so, and the other call has then no old data in hand, the cache tells
of the path nothing but what the server has, once both have returned. -/
theorem no_stale_fill (filler : Filler) (mutator : Mutator) (p : Path)
    (hp : Involves mutator p) (fs : FileSystem L) (env env' : Env) (t : ℕ)
    (ht : ∀ i, t ≤ (env i).now)
    (hlist : filler = .readdir → ∀ r, Served mutator (env' 0) fs.remote r → ListsAll r p env)
    (hcache : ∀ q, Involves mutator q → ∀ it, held fs q = some it → IsCurrent fs.remote q it)
    (hbuffer : BufferIs fs p t (fs.remote.Holds p)) (sides : List Side)
    (hfits : Pair.Along Effect.apply (EffectFits p t)
      ⟨filler.steps p env, mutator.steps env', fs⟩ sides)
    (done : Calls L)
    (hdone : done = Pair.turns Effect.apply ⟨filler.steps p env, mutator.steps env', fs⟩ sides)
    (hreturned : done.Returned) :
    ∀ it, held done.state p = some it → IsCurrent done.state.remote p it := by
  have hstart : Phase p t mutator env' fs.remote
      ⟨filler.steps p env, mutator.steps env', fs⟩ := by
    refine .before _ fs rfl ⟨Or.inl rfl, ?_, ?_⟩ (filler_fills filler ht hlist)
    · exact fun q hq it hit => (hcache q hq it hit).recalls (Or.inl rfl)
    · exact fun x v hx => ⟨fs.remote, Or.inl rfl, hbuffer x v hx⟩
  have hend := Pair.turns_invariant (fun _ _ _ h hstep hfit => phase_first h hstep hfit)
    (fun _ _ _ h hstep hfit => phase_second h hp hstep hfit) sides _ hstart hfits
  rw [← hdone] at hend
  obtain ⟨-, res, hres⟩ := hreturned
  exact hend.current hres

theorem no_stale_fill_put_in_time :
    let L : PageLimits := ⟨4, 4, by decide⟩
    let f : Path := [.rootDir, .normal (.text "f")]
    let env := Env.steady 0 none
    let fs : FileSystem L := .new (.withFiles [f]) 4 0 (some ⟨∅, 4, 10, true, .lru⟩)
    let calls : Calls L := ⟨Filler.getAttributes.steps f env,
      (Mutator.setAttributes f (.ofSize 2)).steps env, fs⟩
    let done := calls.turns Effect.apply [.first, .first, .second, .first, .second]
    ((held done.state f).bind CacheItem.getAttributes).map Attributes.size = some 2 ∧
      ∀ it, held done.state f = some it → IsCurrent done.state.remote f it := by
  intro L f env fs calls done
  refine ⟨by decide, no_stale_fill .getAttributes (.setAttributes f (.ofSize 2)) f rfl fs env env
    0 (fun _ => Nat.zero_le _) nofun ?_ ?_ [.first, .first, .second, .first, .second] ?_ done rfl
    ⟨⟨_, rfl⟩, ⟨_, rfl⟩⟩⟩
  · intro q _ it hit
    cases hit
  · intro x v hx
    cases ReadBuffer.byteAt_new.symm.trans hx
  · refine ⟨fun e he => ?_, fun e he => ?_, fun e he => ?_, fun e he => ?_, fun e he => ?_, trivial⟩
    · obtain rfl := Option.some.inj he
      trivial
    · obtain rfl := Option.some.inj he
      trivial
    · obtain rfl := Option.some.inj he
      trivial
    · obtain rfl := Option.some.inj he
      intro _ g hheld
      cases hheld
    · obtain rfl := Option.some.inj he
      refine fun _ => ⟨⟨nofun, fun g hheld x v hx => ?_⟩, trivial⟩
      cases (byteAt_bare (keys_of_held (by decide) hheld)).symm.trans hx

/-- They are put after the cache has learned of the change: the cache keeps the size from before
it, and the attributes of a file that has been removed. -/
theorem old_attributes_are_put :
    let L : PageLimits := ⟨4, 4, by decide⟩
    let f : Path := [.rootDir, .normal (.text "f")]
    let env := Env.steady 0 none
    let fs : FileSystem L := .new (.withFiles [f]) 4 0 (some ⟨∅, 4, 10, true, .lru⟩)
    let after (mutator : Mutator) : Calls L := Pair.turns Effect.apply
      ⟨Filler.getAttributes.steps f env, mutator.steps env, fs⟩
      [.first, .first, .second, .second, .first]
    let size (calls : Calls L) : Option ℕ :=
      ((held calls.state f).bind CacheItem.getAttributes).map Attributes.size
    let grown := after (.setAttributes f (.ofSize 2))
    let removed := after (.remove f)
    (grown.Returned ∧ size grown = some 0 ∧
      grown.state.remote.nodes f = some (.file [0, 0])) ∧
    removed.Returned ∧ size removed = some 0 ∧ removed.state.remote.nodes f = none := by
  intro L f env fs after size grown removed
  exact ⟨⟨⟨⟨_, rfl⟩, ⟨_, rfl⟩⟩, by decide, by decide⟩, ⟨⟨_, rfl⟩, ⟨_, rfl⟩⟩, by decide, by decide⟩

end ClientStaleFill
