import RemoteFs.ClientPageCacheLoops

/-! # What the page cache may serve

Every file is the outcome of a tree of `write_content` and `merge` calls. A page keeps one
interval, so a gap between two writes is served as zeros; and the page limit is checked
before the page is looked up, so a full file keeps serving the bytes a write replaced. -/
namespace ClientPageCacheReads

open ClientAttributes
open ClientPageCache
open ClientPageCacheLoops
open OsPaths

inductive Build where
  | new (name : OsString) (attributes : Option Attributes)
  | write (b : Build) (offset : ℕ) (data : List UInt8)
  | merge (b other : Build) (walk : HashOrder ℕ)

namespace Build

variable (L : PageLimits)

def file : Build → Except Panic File
  | new name attributes => .ok (File.new name attributes)
  | write b offset data => b.file >>= fun f => f.writeContent L offset data
  | merge b other walk => b.file >>= fun f => other.file >>= fun o => f.merge L o walk

def pageOrder (walk : HashOrder ℕ) (other : File) : List ℕ := walk.order other.content.keys

variable {L}

theorem file_wellFormed (b : Build) : ∃ f, b.file L = .ok f ∧ f.WellFormed L := by
  induction b with
  | new name attributes => exact ⟨_, rfl, File.new_wellFormed name attributes⟩
  | write b offset data ih =>
    obtain ⟨f, hf, hwf⟩ := ih
    obtain ⟨f', _, _, hrun, -, hspec⟩ := writeContent_spec hwf offset data
    refine ⟨f', ?_, hspec.wellFormed⟩
    rw [file, hf]
    exact hrun
  | merge b other walk ih₁ ih₂ =>
    obtain ⟨f, hf, hwf⟩ := ih₁
    obtain ⟨o, ho, hwo⟩ := ih₂
    obtain ⟨f', hrun, -, hspec⟩ := merge_spec hwf hwo walk
    refine ⟨f', ?_, hspec.wellFormed⟩
    rw [file, hf, ho]
    exact hrun

variable (L)

/-- Some write of the tree stored the byte at the position: the write, and every merge
since, reached the page before the page limit stopped it. -/
def Stored : Build → ℕ → UInt8 → Prop
  | new _ _, _, _ => False
  | write b offset data, p, byte => b.Stored p byte ∨
      offset ≤ p ∧ data[p - offset]? = some byte ∧
        ∃ f, b.file L = .ok f ∧ (pagesBefore L f offset p).card < L.maxPages
  | merge b other walk, p, byte => b.Stored p byte ∨
      other.Stored p byte ∧ ∃ f o, b.file L = .ok f ∧ other.file L = .ok o ∧
        (pagesMerged f (pageOrder walk o) (p / L.pageSize)).card < L.maxPages

/-- No write leaves a gap, in a page it reaches, between its bytes and the valid interval
of that page. -/
def GapFree : Build → Prop
  | new _ _ => True
  | write b offset data => b.GapFree ∧ ∀ f, b.file L = .ok f → ∀ p,
      Bridged L f offset data.length p → L.maxPages ≤ (pagesBefore L f offset p).card
  | merge b other walk => b.GapFree ∧ other.GapFree ∧
      ∀ f o, b.file L = .ok f → other.file L = .ok o → ∀ p, BridgedByMerge L f o p →
        L.maxPages ≤ (pagesMerged f (pageOrder walk o) (p / L.pageSize)).card

end Build

variable {L : PageLimits}

/-- A gap behind the stored prefix is a gap behind the data, in a page with room. -/
theorem bridged_of_stored {f f' : File} {off : ℕ} {data stored rest : List UInt8}
    (h : WriteSpec L f off data stored f') (hs : data = stored ++ rest) {p : ℕ}
    (hb : Bridged L f off stored.length p) :
    Bridged L f off data.length p ∧ (pagesBefore L f off p).card < L.maxPages := by
  have hlen : data.length = stored.length + rest.length := by rw [hs, List.length_append]
  obtain ⟨hpos, page, hl, hside⟩ := hb
  have hroom : ∀ q, off ≤ q → q < off + stored.length → p / L.pageSize = q / L.pageSize →
      (pagesBefore L f off p).card < L.maxPages := by
    intro q h₁ h₂ hq
    have := (h.room q h₁ (by omega)).mp h₂
    rw [pagesBefore] at this ⊢
    rwa [hq]
  rcases hside with ⟨h₁, h₂, h₃⟩ | ⟨h₁, h₂, h₃⟩
  · exact ⟨⟨by omega, page, hl, Or.inl ⟨h₁, h₂, h₃⟩⟩, hroom off le_rfl (by omega) h₃⟩
  · have hrest : rest.length = 0 := by
      by_contra hne
      have hbetween : (off + stored.length) / L.pageSize = p / L.pageSize := by
        refine le_antisymm (Nat.div_le_div_right h₂) ?_
        rw [h₃]
        exact Nat.div_le_div_right (by omega)
      have hnext := (h.room (off + stored.length) (by omega) (by omega)).mpr (by
        rw [pagesBefore, hbetween]
        exact hroom (off + stored.length - 1) (by omega) (by omega) h₃)
      omega
    have hsame : data.length = stored.length := by omega
    refine ⟨⟨by omega, page, hl, Or.inr ⟨h₁, by omega, by rw [hsame]; exact h₃⟩⟩, ?_⟩
    exact hroom (off + stored.length - 1) (by omega) (by omega) h₃

/-- A served byte was served before, was stored by this write, or is the zero of a gap. -/
theorem served_after_write {f f' : File} {off : ℕ} {data stored rest : List UInt8}
    (h : WriteSpec L f off data stored f') (hs : data = stored ++ rest) {p : ℕ} {b : UInt8}
    (hb : f'.byteAt L p = some b) :
    f.byteAt L p = some b ∨
      (off ≤ p ∧ data[p - off]? = some b ∧ (pagesBefore L f off p).card < L.maxPages) ∨
      Bridged L f off data.length p ∧ (pagesBefore L f off p).card < L.maxPages := by
  have hlen : data.length = stored.length + rest.length := by rw [hs, List.length_append]
  by_cases hp : off ≤ p ∧ p < off + stored.length
  · right; left
    have hroom := (h.room p hp.1 (by omega)).mp hp.2
    rw [h.reached hs hp.1 (by omega) hroom] at hb
    exact ⟨hp.1, hb, hroom⟩
  · rcases h.stores.origin p b (by omega) hb with hold | ⟨-, hgap⟩
    · exact Or.inl hold
    · exact Or.inr (Or.inr (bridged_of_stored h hs hgap))

theorem Build.served_was_stored (b : Build) (hgap : b.GapFree L) :
    ∀ f, b.file L = .ok f → ∀ p byte, f.byteAt L p = some byte → b.Stored L p byte := by
  induction b with
  | new name attributes =>
    intro f hf p byte hb
    injection hf with hf
    subst hf
    rw [File.byteAt_new] at hb
    cases hb
  | write b offset data ih =>
    obtain ⟨hgap, hstep⟩ := hgap
    obtain ⟨f₀, hf₀, hwf⟩ := b.file_wellFormed (L := L)
    obtain ⟨f', stored, rest, hrun, hs, hspec⟩ := writeContent_spec hwf offset data
    intro f hf p byte hb
    rw [Build.file, hf₀] at hf
    obtain rfl : f' = f := by
      have := hrun.symm.trans hf
      injection this
    rcases served_after_write hspec hs hb with hold | ⟨h₁, h₂, h₃⟩ | ⟨h₁, h₂⟩
    · exact Or.inl (ih hgap f₀ hf₀ p byte hold)
    · exact Or.inr ⟨h₁, h₂, f₀, hf₀, h₃⟩
    · have := hstep f₀ hf₀ p h₁
      omega
  | merge b other walk ih₁ ih₂ =>
    obtain ⟨hgap₁, hgap₂, hstep⟩ := hgap
    obtain ⟨f₀, hf₀, hwf⟩ := b.file_wellFormed (L := L)
    obtain ⟨o, ho, hwo⟩ := other.file_wellFormed (L := L)
    obtain ⟨f', hrun, -, hspec⟩ := merge_spec hwf hwo walk
    intro f hf p byte hb
    rw [Build.file, hf₀] at hf
    replace hf : (other.file L >>= fun o => f₀.merge L o walk) = .ok f := hf
    rw [ho] at hf
    obtain rfl : f' = f := by
      have := hrun.symm.trans hf
      injection this
    have hmem : ∀ k ∈ walk.order o.content.keys, k ∈ o.content := fun k hk =>
      AList.mem_keys.mpr ((walk.perm _).mem_iff.mp hk)
    rcases hspec.origin hwf hwo hmem hb with ⟨hnew, -, hroom⟩ | hold | ⟨-, hbridge, -, hroom⟩
    · exact Or.inr ⟨ih₂ hgap₂ o ho p byte hnew, f₀, o, hf₀, ho, hroom⟩
    · exact Or.inl (ih₁ hgap₁ f₀ hf₀ p byte hold)
    · have := hstep f₀ o hf₀ ho p hbridge
      rw [Build.pageOrder] at this
      omega

/-- A position of the data that the page limit keeps the write from serves what it served. -/
theorem unreached_by_write {f f' : File} {off : ℕ} {data stored rest : List UInt8}
    (h : WriteSpec L f off data stored f') (hs : data = stored ++ rest) {p : ℕ}
    (h₁ : off ≤ p) (h₂ : p < off + data.length)
    (hroom : L.maxPages ≤ (pagesBefore L f off p).card) :
    f'.byteAt L p = f.byteAt L p := by
  have hout : off + stored.length ≤ p := by
    by_contra hlt
    have := (h.room p h₁ h₂).mp (by omega)
    omega
  cases hb : f.byteAt L p with
  | some b => exact h.stores.kept p b (Or.inr hout) hb
  | none =>
    cases hb' : f'.byteAt L p with
    | none => rfl
    | some b =>
      rcases h.stores.origin p b (Or.inr hout) hb' with hold | ⟨-, hgap⟩
      · rw [hb] at hold; cases hold
      · have := (bridged_of_stored h hs hgap).2
        omega

/-- Which writes leave no old byte readable: exactly those that find the pages they come
to after the page limit unserved, or serving the same bytes. -/
theorem write_serves_new_bytes_iff {f : File} (hf : f.WellFormed L) (offset : ℕ)
    (data : List UInt8) : ∃ f', f.writeContent L offset data = .ok f' ∧
      ((∀ p byte, offset ≤ p → p < offset + data.length → Serves L f' p byte →
          data[p - offset]? = some byte) ↔
        ∀ p byte, offset ≤ p → p < offset + data.length →
          L.maxPages ≤ (pagesBefore L f offset p).card → Serves L f p byte →
          data[p - offset]? = some byte) := by
  obtain ⟨f', stored, rest, hrun, hs, hspec⟩ := writeContent_spec hf offset data
  refine ⟨f', hrun, ?_⟩
  constructor
  · intro h p byte h₁ h₂ hroom hb
    rw [serves_iff hf, ← unreached_by_write hspec hs h₁ h₂ hroom] at hb
    exact h p byte h₁ h₂ ((serves_iff hspec.wellFormed).mpr hb)
  · intro h p byte h₁ h₂ hb
    rw [serves_iff hspec.wellFormed] at hb
    by_cases hroom : (pagesBefore L f offset p).card < L.maxPages
    · rw [← hspec.reached hs h₁ h₂ hroom]
      exact hb
    · rw [unreached_by_write hspec hs h₁ h₂ (by omega)] at hb
      exact h p byte h₁ h₂ (by omega) ((serves_iff hf).mpr hb)

/-- The same for a merge, in whatever order it walks the pages. -/
theorem merge_serves_new_bytes_iff {f other : File} (hf : f.WellFormed L)
    (ho : other.WellFormed L) (walk : HashOrder ℕ) :
    ∃ f', f.merge L other walk = .ok f' ∧
      ((∀ p byte old, Serves L other p byte → Serves L f' p old → old = byte) ↔
        ∀ p byte old, Serves L other p byte →
          L.maxPages ≤ (pagesMerged f (Build.pageOrder walk other) (p / L.pageSize)).card →
          Serves L f p old → old = byte) := by
  obtain ⟨f', hrun, -, hspec⟩ := merge_spec hf ho walk
  refine ⟨f', hrun, ?_⟩
  constructor
  · intro h p byte old hb hroom hold
    rw [serves_iff hf, ← hspec.unreached (Or.inr hroom)] at hold
    exact h p byte old hb ((serves_iff hspec.wellFormed).mpr hold)
  · intro h p byte old hb hold
    rw [serves_iff hspec.wellFormed] at hold
    by_cases hroom :
        (pagesMerged f (Build.pageOrder walk other) (p / L.pageSize)).card < L.maxPages
    · have hb' := (serves_iff ho).mp hb
      obtain ⟨page, hl, -⟩ := mem_of_byteAt hb'
      have hk : p / L.pageSize ∈ walk.order other.content.keys := by
        rw [(walk.perm _).mem_iff, ← AList.mem_keys]
        exact AList.lookup_isSome.mp (by rw [hl]; rfl)
      rw [hspec.reached hf ho hk hroom hb'] at hold
      injection hold with hold
      exact hold.symm
    · rw [hspec.unreached (Or.inr (not_lt.mp hroom))] at hold
      exact h p byte old hb (not_lt.mp hroom) ((serves_iff hf).mpr hold)

/-- Both ways to change a file, for every file that calls can make. -/
theorem last_write_served_iff (b other : Build) (offset : ℕ) (data : List UInt8)
    (walk : HashOrder ℕ) : ∃ f o, b.file L = .ok f ∧ other.file L = .ok o ∧
      (∃ f', f.writeContent L offset data = .ok f' ∧
        ((∀ p byte, offset ≤ p → p < offset + data.length → Serves L f' p byte →
            data[p - offset]? = some byte) ↔
          ∀ p byte, offset ≤ p → p < offset + data.length →
            L.maxPages ≤ (pagesBefore L f offset p).card → Serves L f p byte →
            data[p - offset]? = some byte)) ∧
      ∃ f', f.merge L o walk = .ok f' ∧
        ((∀ p byte old, Serves L o p byte → Serves L f' p old → old = byte) ↔
          ∀ p byte old, Serves L o p byte →
            L.maxPages ≤ (pagesMerged f (Build.pageOrder walk o) (p / L.pageSize)).card →
            Serves L f p old → old = byte) := by
  obtain ⟨f, hf, hwf⟩ := b.file_wellFormed (L := L)
  obtain ⟨o, ho, hwo⟩ := other.file_wellFormed (L := L)
  exact ⟨f, o, hf, ho, write_serves_new_bytes_iff hwf offset data,
    merge_serves_new_bytes_iff hwf hwo walk⟩

/-- A file of one page, which is the limit, keeps the byte that a write replaced. -/
theorem full_file_serves_old_byte :
    let L : PageLimits := ⟨2, 1, by decide⟩
    let b := (Build.new (.text "f") none).write 0 [1, 2]
    (b.file L >>= fun f => f.writeContent L 0 [9] >>= fun f' => f'.read L 0 1) = .ok [1] := by
  decide

end ClientPageCacheReads
