import RemoteFs.PercentEncoding
import RemoteFs.ServerXattributes

/-! # The addresses of extended attributes

The client writes the path and the name into a URL, the path percent-encoded and the name as it is.
The server's router cuts the URL, splits it, and decodes the segments that its parameters take. What
the URL parser of the client's library makes of backslashes, of tabs, of blanks at the end and of
segments of dots is not part of it. -/
namespace XattributeUrls

open Utf8Lossy
open PercentEncoding
open ServerXattributes

def urlencode (s : String) : String := String.ofList (encode (utf8 s.toList))

def setLongUrl (baseUrl api path group : String) (obj : Option String) : String :=
  match obj with
  | some ob2 => baseUrl ++ "/" ++ api ++ "/" ++ urlencode path ++ "/" ++ group ++ "/" ++ ob2
  | none => baseUrl ++ "/" ++ api ++ "/" ++ urlencode path ++ "/" ++ group

def xAttributeUrl (baseUrl path name : String) : String :=
  setLongUrl baseUrl "xattributes" path "names" (some name)

def xAttributesUrl (baseUrl path : String) : String :=
  setLongUrl baseUrl "xattributes" path "names" none

/-- A query or a fragment is not part of what is routed. -/
def cut (target : List Char) : List Char := target.takeWhile fun c => c ≠ '?' && c ≠ '#'

def segments (baseUrl url : String) : List (List Char) :=
  if baseUrl.toList <+: url.toList then (cut (url.toList.drop baseUrl.length)).splitOn '/' else []

def decodeSegment (s : List Char) : String := String.ofList (fromUtf8Lossy (decode s))

/-- `/xattributes/{path}/names/{name}`, whose parameters take no empty segment. -/
def nameRoute (baseUrl url : String) : Option (String × String) :=
  match segments baseUrl url with
  | [[], api, path, group, name] =>
    if api = "xattributes".toList ∧ group = "names".toList ∧ path ≠ [] ∧ name ≠ [] then
      some (decodeSegment path, decodeSegment name)
    else none
  | _ => none

def namesRoute (baseUrl url : String) : Option String :=
  match segments baseUrl url with
  | [[], api, path, group] =>
    if api = "xattributes".toList ∧ group = "names".toList ∧ path ≠ [] then
      some (decodeSegment path)
    else none
  | _ => none

inductive Method where
  | put (xattributes : List UInt8)
  | get
  | delete
  deriving DecidableEq, Repr

def Method.call (path name : String) : Method → Call
  | .put xattributes => .set path name xattributes
  | .get => .get path name
  | .delete => .remove path name

def nameCall (baseUrl url : String) (method : Method) : Option Call :=
  (nameRoute baseUrl url).map fun key => method.call key.1 key.2

def listCall (baseUrl url : String) : Option Call := (namesRoute baseUrl url).map Call.list

def Addresses (baseUrl url : String) (r : Row) : Prop :=
  ∃ path name, nameRoute baseUrl url = some (path, name) ∧ keyed path name r = true

section Routes

variable {baseUrl path name : String}

theorem decodeSegment_encode (path : String) :
    decodeSegment (encode (utf8 path.toList)) = path := by
  rw [decodeSegment, decode_encode, fromUtf8Lossy_utf8, String.ofList_toList]

theorem encode_eq_nil : encode (utf8 path.toList) = [] ↔ path = "" := by
  constructor
  · intro hnil
    have hpath := decodeSegment_encode path
    rw [hnil] at hpath
    exact hpath.symm
  · rintro rfl
    rfl

theorem not_mem_encode {c : Char} (hpercent : c ≠ '%')
    (hreserved : unreserved (UInt8.ofNat c.toNat) = false) (bytes : List UInt8) :
    c ∉ encode bytes := by
  intro hmem
  rcases mem_encode hmem with h | h
  · exact hpercent h
  · exact Bool.false_ne_true (hreserved.symm.trans h)

theorem slash_not_mem_encode (bytes : List UInt8) : '/' ∉ encode bytes :=
  not_mem_encode (by decide) (by decide) bytes

def Uncut (s : List Char) : Prop := '?' ∉ s ∧ '#' ∉ s

theorem uncut_encode (bytes : List UInt8) : Uncut (encode bytes) :=
  ⟨not_mem_encode (by decide) (by decide) bytes, not_mem_encode (by decide) (by decide) bytes⟩

theorem uncut_char {s : List Char} (h : Uncut s) (c : Char) (hc : c ∈ s) :
    (c ≠ '?' && c ≠ '#') = true := by
  rw [Bool.and_eq_true, decide_eq_true_iff, decide_eq_true_iff]
  exact ⟨fun hq => h.1 (hq ▸ hc), fun hf => h.2 (hf ▸ hc)⟩

theorem cut_append {s : List Char} (h : Uncut s) (t : List Char) : cut (s ++ t) = s ++ cut t :=
  List.takeWhile_append_of_pos (uncut_char h)

theorem cut_uncut {s : List Char} (h : Uncut s) : cut s = s := by
  simpa [cut] using cut_append h []

/-- What is cut off begins with an ASCII character. -/
theorem cut_ascii (s : List Char) : Uncut s ∨ (cut s).countP ascii < s.countP ascii := by
  induction s with
  | nil => exact Or.inl ⟨List.not_mem_nil, List.not_mem_nil⟩
  | cons c s ih =>
    by_cases hc : c = '?' ∨ c = '#'
    · right
      have hcut : cut (c :: s) = [] := by
        obtain rfl | rfl := hc <;> rfl
      have hascii : ascii c = true := by
        obtain rfl | rfl := hc <;> rfl
      rw [hcut, List.countP_nil, List.countP_cons_of_pos hascii]
      exact Nat.succ_pos _
    · rw [not_or] at hc
      have hcut : cut (c :: s) = c :: cut s :=
        List.takeWhile_cons_of_pos (by simp [hc.1, hc.2])
      rcases ih with huncut | hfewer
      · left
        exact ⟨List.not_mem_cons_of_ne_of_not_mem (Ne.symm hc.1) huncut.1,
          List.not_mem_cons_of_ne_of_not_mem (Ne.symm hc.2) huncut.2⟩
      · right
        rw [hcut, List.countP_cons, List.countP_cons]
        exact Nat.add_lt_add_right hfewer _

def groupTarget (path : String) : List Char :=
  '/' :: ("xattributes".toList ++ '/' :: (encode (utf8 path.toList) ++ '/' :: "names".toList))

theorem uncut_groupTarget (path : String) : Uncut (groupTarget path) := by
  have hpath := uncut_encode (utf8 path.toList)
  constructor
  · simp [groupTarget, hpath.1]
  · simp [groupTarget, hpath.2]

theorem segments_eq {url : String} {rest : List Char}
    (h : url.toList = baseUrl.toList ++ (groupTarget path ++ rest)) :
    segments baseUrl url = [] :: "xattributes".toList :: encode (utf8 path.toList) ::
      ("names".toList ++ cut rest).splitOn '/' := by
  have htarget : groupTarget path ++ cut rest = [] ++ '/' :: ("xattributes".toList ++ '/' ::
      (encode (utf8 path.toList) ++ '/' :: ("names".toList ++ cut rest))) := by
    simp [groupTarget]
  unfold segments
  rw [h, if_pos (List.prefix_append _ _), ← String.length_toList, List.drop_left,
    cut_append (uncut_groupTarget path), htarget,
    List.splitOn_append_cons_self_of_not_mem List.not_mem_nil,
    List.splitOn_append_cons_self_of_not_mem (by decide),
    List.splitOn_append_cons_self_of_not_mem (slash_not_mem_encode _)]

theorem segments_name : segments baseUrl (xAttributeUrl baseUrl path name) =
    [] :: "xattributes".toList :: encode (utf8 path.toList) :: "names".toList ::
      (cut name.toList).splitOn '/' := by
  have htarget : (xAttributeUrl baseUrl path name).toList =
      baseUrl.toList ++ (groupTarget path ++ '/' :: name.toList) := by
    simp [xAttributeUrl, setLongUrl, urlencode, groupTarget, String.toList_append]
  have hcut : cut ('/' :: name.toList) = '/' :: cut name.toList := rfl
  rw [segments_eq htarget, hcut, List.splitOn_append_cons_self_of_not_mem (by decide)]

theorem segments_names : segments baseUrl (xAttributesUrl baseUrl path) =
    [[], "xattributes".toList, encode (utf8 path.toList), "names".toList] := by
  have htarget : (xAttributesUrl baseUrl path).toList =
      baseUrl.toList ++ (groupTarget path ++ []) := by
    simp [xAttributesUrl, setLongUrl, urlencode, groupTarget, String.toList_append]
  have hnames : ("names".toList ++ cut []).splitOn '/' = ["names".toList] :=
    List.splitOn_eq_singleton (by decide)
  rw [segments_eq htarget, hnames]

/-- A name with a slash has too many segments for the route. -/
theorem nameRoute_slash (h : '/' ∈ cut name.toList) :
    nameRoute baseUrl (xAttributeUrl baseUrl path name) = none := by
  obtain ⟨before, after, hsplit⟩ := List.append_of_mem h
  unfold nameRoute
  rw [segments_name, hsplit, List.splitOn_append_cons_self]
  cases hbefore : before.splitOn '/' with
  | nil => exact absurd hbefore (List.splitOn_ne_nil _ _)
  | cons first others =>
    cases hafter : after.splitOn '/' with
    | nil => exact absurd hafter (List.splitOn_ne_nil _ _)
    | cons last more => cases others <;> rfl

theorem nameRoute_segment (h : '/' ∉ cut name.toList) :
    nameRoute baseUrl (xAttributeUrl baseUrl path name) =
      if path ≠ "" ∧ cut name.toList ≠ [] then some (path, decodeSegment (cut name.toList))
      else none := by
  unfold nameRoute
  rw [segments_name, List.splitOn_eq_singleton h]
  dsimp only
  rw [decodeSegment_encode]
  simp only [ne_eq, true_and, encode_eq_nil]

theorem namesRoute_carried (h : path ≠ "") :
    namesRoute baseUrl (xAttributesUrl baseUrl path) = some path := by
  unfold namesRoute
  rw [segments_names]
  dsimp only
  rw [decodeSegment_encode, if_pos ⟨rfl, rfl, mt encode_eq_nil.mp h⟩]

/-- Of names that the URL and the router leave as they are. -/
structure Plain (name : String) : Prop where
  slash : '/' ∉ name.toList
  uncut : Uncut name.toList
  unescaped : Unescaped name.toList

theorem decodeSegment_plain (hplain : Plain name) : decodeSegment name.toList = name := by
  rw [decodeSegment, decode_unescaped hplain.unescaped, fromUtf8Lossy_utf8, String.ofList_toList]

theorem nameRoute_plain (hpath : path ≠ "") (hname : name ≠ "") (hplain : Plain name) :
    nameRoute baseUrl (xAttributeUrl baseUrl path name) = some (path, name) := by
  have hcut := cut_uncut hplain.uncut
  have hslash : '/' ∉ cut name.toList := by
    rw [hcut]
    exact hplain.slash
  rw [nameRoute_segment hslash, hcut, decodeSegment_plain hplain,
    if_pos ⟨hpath, mt String.toList_eq_nil_iff.mp hname⟩]

/-- Cutting and decoding keep the number of ASCII characters only where they change nothing. -/
theorem plain_of_nameRoute
    (h : nameRoute baseUrl (xAttributeUrl baseUrl path name) = some (path, name)) :
    path ≠ "" ∧ Plain name := by
  have hslash : '/' ∉ cut name.toList := by
    intro hmem
    rw [nameRoute_slash hmem] at h
    cases h
  rw [nameRoute_segment hslash] at h
  split_ifs at h with hroute
  have hdecoded : decodeSegment (cut name.toList) = name := by
    simpa using h
  have hlossy : fromUtf8Lossy (decode (cut name.toList)) = name.toList := by
    have hlist := congrArg String.toList hdecoded
    rwa [decodeSegment, String.toList_ofList] at hlist
  have hread := ascii_fromUtf8Lossy (decode (cut name.toList))
  rw [hlossy] at hread
  obtain ⟨hkept, hlost⟩ := ascii_decode (cut name.toList)
  have huncut : Uncut name.toList := by
    rcases cut_ascii name.toList with huncut | hfewer
    · exact huncut
    · omega
  rw [cut_uncut huncut] at hslash hread hlost
  refine ⟨hroute.1, hslash, huncut, ?_⟩
  by_contra hescape
  have hfewer := hlost hescape
  omega

end Routes

def Carried (baseUrl path name : String) : Prop :=
  nameRoute baseUrl (xAttributeUrl baseUrl path name) = some (path, name)

section Requests

variable {baseUrl path name : String}

theorem carried_keyed (h : Carried baseUrl path name) {r : Row}
    (hr : Addresses baseUrl (xAttributeUrl baseUrl path name) r) :
    r.path = path ∧ r.name = name := by
  obtain ⟨path', name', hroute, hkeyed⟩ := hr
  obtain ⟨rfl, rfl⟩ := Prod.mk.inj (Option.some.inj (h.symm.trans hroute))
  exact keyed_iff.mp hkeyed

theorem nameCall_carried (h : Carried baseUrl path name) (method : Method) :
    nameCall baseUrl (xAttributeUrl baseUrl path name) method = some (method.call path name) := by
  unfold nameCall
  rw [h, Option.map_some]

theorem listCall_carried (h : path ≠ "") :
    listCall baseUrl (xAttributesUrl baseUrl path) = some (.list path) := by
  unfold listCall
  rw [namesRoute_carried h, Option.map_some]

/-- Whatever follows a question mark is no part of the name. -/
theorem query_is_cut (hname : Uncut name.toList) (query : String) :
    nameRoute baseUrl (xAttributeUrl baseUrl path (name ++ "?" ++ query)) =
      nameRoute baseUrl (xAttributeUrl baseUrl path name) := by
  have hcut : cut (name ++ "?" ++ query).toList = cut name.toList := by
    have hlist : (name ++ "?" ++ query).toList = name.toList ++ '?' :: query.toList := by
      simp [String.toList_append]
    rw [hlist, cut_append hname, cut_uncut hname]
    exact List.append_nil _
  unfold nameRoute
  rw [segments_name, segments_name, hcut]

end Requests

/-- An attribute's request is carried exactly where the path is not empty and the name has no slash,
question mark, number sign or escape; requests that are do not share a row. -/
theorem exact_address_iff (baseUrl path name : String) (hname : name ≠ "") :
    (Carried baseUrl path name ↔ path ≠ "" ∧ Plain name) ∧
    ∀ path' name', name' ≠ "" → path ≠ "" ∧ Plain name → path' ≠ "" ∧ Plain name' → ∀ r,
      Addresses baseUrl (xAttributeUrl baseUrl path name) r →
      Addresses baseUrl (xAttributeUrl baseUrl path' name') r → path = path' ∧ name = name' := by
  constructor
  · exact ⟨plain_of_nameRoute, fun ⟨hpath, hplain⟩ => nameRoute_plain hpath hname hplain⟩
  · rintro path' name' hname' ⟨hpath, hplain⟩ ⟨hpath', hplain'⟩ r hr hr'
    have hkey := carried_keyed (nameRoute_plain hpath hname hplain) hr
    have hkey' := carried_keyed (nameRoute_plain hpath' hname' hplain') hr'
    exact ⟨hkey.1.symm.trans hkey'.1, hkey.2.symm.trans hkey'.2⟩

def v1 : String := "http://localhost:8080/api/v1"

theorem plain_user_a : Plain "user.a" :=
  ⟨by decide, ⟨by decide, by decide⟩, unescaped_of_no_percent (by decide)⟩

theorem exact_address_iff_query_in_path : Carried v1 "/what?/100%25" "user.a" :=
  (exact_address_iff v1 "/what?/100%25" "user.a" (by decide)).1.mpr ⟨by decide, plain_user_a⟩

/-- The attributes `user.a?b` and `user.a` of a path have one row, an escape is read as what it
stands for, and a name with a slash has no row. -/
theorem query_in_name :
    ¬Carried v1 "/a" "user.a?b" ∧
    Addresses v1 (xAttributeUrl v1 "/a" "user.a?b") ⟨"/a", "user.a", []⟩ ∧
    Addresses v1 (xAttributeUrl v1 "/a" "user.a") ⟨"/a", "user.a", []⟩ ∧
    nameRoute v1 (xAttributeUrl v1 "/a" "user.100%25") = some ("/a", "user.100%") ∧
    nameRoute v1 (xAttributeUrl v1 "/a" "user.a/b") = none := by
  have hplain : nameRoute v1 (xAttributeUrl v1 "/a" "user.a") = some ("/a", "user.a") :=
    nameRoute_plain (by decide) (by decide) plain_user_a
  have hquery : nameRoute v1 (xAttributeUrl v1 "/a" "user.a?b") = some ("/a", "user.a") :=
    (query_is_cut plain_user_a.uncut "b").trans hplain
  refine ⟨?_, ⟨_, _, hquery, by decide⟩, ⟨_, _, hplain, by decide⟩, by decide,
    nameRoute_slash (by decide)⟩
  intro hcarried
  exact (plain_of_nameRoute hcarried).2.uncut.1 (by decide)

end XattributeUrls
