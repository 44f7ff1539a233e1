import Mathlib.Data.List.Flatten
import Pincerbell.Message
import Pincerbell.Support.UrlParser

/-!
# The device that a request to APNs addresses

`deliver` writes the pushkey behind `/3/device/` as it is, and the URL parser reads what comes out.
So a slash, a question mark or a number sign of the pushkey ends the segment, dots make it a step in
the path, a percent sign starts an encoded byte, and some characters are dropped.

* `Message.target` — the URL of a message to APNs as it is parsed.
* `AddressesToken` — the path names the device whose token is the pushkey, and there is no query.
* `AddressesToken.injective` — no two pushkeys are addressed by one path.
* `Plain` — the pushkeys that the URL parser leaves alone.
* `addressesToken_iff` — a request addresses the device of its pushkey exactly for those.
* `not_addressesToken` — a pushkey with which the request goes to the device of another one.
-/

namespace Pincerbell

open UrlParser PercentEncoding Utf8

/-- The URL that a message to APNs is sent to, as it is parsed. -/
def Message.target {Authority : Type} (parseAuthority : List Char → List Char → Option Authority)
    (m : Message) : Option (Record Authority) :=
  match m with
  | .apns url _ _ _ _ => parse parseAuthority url
  | _ => none

/-- The path consists of `3`, of `device` and of what decodes to the pushkey, and there is no
query. -/
def AddressesToken (parts : Parts) (pushkey : String) : Prop :=
  parts.query = none ∧
    ∃ segment, parts.path = [utf8 "3".toList, utf8 "device".toList, segment] ∧
      percentDecode segment = bytes pushkey

/-- Nothing in the pushkey has a meaning in a URL. -/
structure Plain (pushkey : String) : Prop where
  /-- It has no slash, backslash, question mark and number sign. -/
  delimiter : ∀ c ∈ pushkey.toList, isDelimiter c = false
  tabOrNewline : ∀ c ∈ pushkey.toList, isTabOrNewline c = false
  trailing : ∀ c, pushkey.toList.getLast? = some c → isC0ControlOrSpace c = false
  dot : pushkey ≠ "."
  dots : pushkey ≠ ".."
  /-- There is no percent sign with two hexadecimal digits. -/
  escape : ¬ HasEscape (bytes pushkey)

variable {Authority : Type} {parseAuthority : List Char → List Char → Option Authority}
  {parts parts' : Parts} {pushkey pushkey' : String}

/-- The bytes of a pushkey determine it. -/
theorem eq_of_utf8_eq (h : utf8 pushkey.toList = utf8 pushkey'.toList) : pushkey = pushkey' :=
  String.toList_injective (utf8_injective h)

/-- Two pushkeys are not addressed by the same path. -/
theorem AddressesToken.injective (h : AddressesToken parts pushkey)
    (h' : AddressesToken parts' pushkey') (hpath : parts.path = parts'.path) :
    pushkey = pushkey' := by
  obtain ⟨-, segment, hsegment, hdecode⟩ := h
  obtain ⟨-, segment', hsegment', hdecode'⟩ := h'
  rw [hsegment, hsegment'] at hpath
  obtain rfl : segment = segment' := by simpa using hpath
  apply eq_of_utf8_eq
  rw [← toList_toUTF8, ← toList_toUTF8]
  exact hdecode.symm.trans hdecode'

/-- The parser starts to read the pushkey after the second segment. -/
theorem pathState_pushkey (cs : List Char) :
    pathState [] [] ("3/device/".toList ++ cs) =
      pathState [utf8 "3".toList, utf8 "device".toList] [] cs := rfl

/-- Dots lead out of the path. -/
example : (pathState [] [] (cleanEnd "3/device/../../4".toList)).path = [utf8 "4".toList] := rfl

/-- What the parser makes of the URL of a message: the scheme and the authority are the configured
ones. -/
theorem target_message (root : Origin parseAuthority) (app : ApnsApp) (n : Notification)
    (device : Device) :
    ({ app with apiRoot := root.text }.message n device).target parseAuthority =
      some { pathState [utf8 "3".toList, utf8 "device".toList] []
          (cleanEnd device.pushkey.toList) with
        scheme := root.scheme, authority := root.authority } := by
  have hurl : root.text ++ "/3/device/" ++ device.pushkey =
      root.text ++ "/" ++ ("3/device/" ++ device.pushkey) := by
    have hfront : "/3/device/" = "/" ++ "3/device/" := rfl
    rw [hfront]
    simp only [String.append_assoc]
  have hclean : cleanEnd ("3/device/" ++ device.pushkey).toList =
      "3/device/".toList ++ cleanEnd device.pushkey.toList := by
    rw [String.toList_append]
    exact cleanEnd_append_cons (by decide) "3/device".toList device.pushkey.toList
  show parse parseAuthority (root.text ++ "/3/device/" ++ device.pushkey) = _
  rw [hurl, parse_origin_append, hclean, pathState_pushkey]

/-! ### Plain pushkeys -/

/-- A pushkey is plain when the parser drops nothing of it, finds no end of a segment and no dot
segment, and decoding changes nothing. -/
theorem plain_iff :
    Plain pushkey ↔ cleanEnd pushkey.toList = pushkey.toList ∧
      (∀ c ∈ pushkey.toList, isDelimiter c = false) ∧ pushkey ≠ "." ∧ pushkey ≠ ".." ∧
        percentDecode (utf8 pushkey.toList) = utf8 pushkey.toList := by
  rw [cleanEnd_eq_self_iff, percentDecode_eq_self_iff, ← toList_toUTF8]
  constructor
  · intro h
    exact ⟨⟨h.tabOrNewline, h.trailing⟩, h.delimiter, h.dot, h.dots, h.escape⟩
  · rintro ⟨⟨htab, htrailing⟩, hdelimiter, hdot, hdots, hescape⟩
    exact ⟨hdelimiter, htab, htrailing, hdot, hdots, hescape⟩

/-- The encoding of a plain pushkey is no dot segment. -/
theorem Plain.notMem_dots (h : Plain pushkey) :
    percentEncode pathSet (utf8 pushkey.toList) ∉ doubleDots ∧
      percentEncode pathSet (utf8 pushkey.toList) ∉ singleDots := by
  obtain ⟨-, -, hdot, hdots, hdecode⟩ := plain_iff.mp h
  rw [← percentDecode_percentEncode encodable_pathSet] at hdecode
  constructor
  · intro hmem
    rw [percentDecode_of_mem_doubleDots hmem] at hdecode
    exact hdots (eq_of_utf8_eq hdecode.symm)
  · intro hmem
    rw [percentDecode_of_mem_singleDots hmem] at hdecode
    exact hdot (eq_of_utf8_eq hdecode.symm)

/-- The request for a plain pushkey addresses its device. -/
theorem Plain.addressesToken (h : Plain pushkey) :
    AddressesToken (pathState [utf8 "3".toList, utf8 "device".toList] []
      (cleanEnd pushkey.toList)) pushkey := by
  obtain ⟨hclean, hdelimiter, -, -, hdecode⟩ := plain_iff.mp h
  rw [hclean, pathState_of_not_isDelimiter hdelimiter,
    endSegment_of_notMem h.notMem_dots.1 h.notMem_dots.2]
  refine ⟨rfl, percentEncode pathSet (utf8 pushkey.toList), rfl, ?_⟩
  rw [percentDecode_percentEncode encodable_pathSet, hdecode]
  exact (toList_toUTF8 pushkey).symm

/-- A pushkey of which as many bytes are left, apart from the delimiters, has nothing that is
dropped and no delimiter. -/
theorem cleanEnd_eq_of_length_le {cs : List Char}
    (hle : (utf8 cs).length + (cleanEnd cs).countP isDelimiter ≤ (utf8 (cleanEnd cs)).length) :
    cleanEnd cs = cs ∧ ∀ c ∈ cs, isDelimiter c = false := by
  have hsublist : (utf8 (cleanEnd cs)).Sublist (utf8 cs) :=
    (cleanEnd_sublist cs).flatMap String.utf8EncodeChar
  have hclean : cleanEnd cs = cs := utf8_injective (hsublist.eq_of_length_le (by omega))
  refine ⟨hclean, ?_⟩
  rw [hclean] at hle
  have hcount : cs.countP isDelimiter = 0 := by omega
  simpa using hcount

/-- What is not plain is not addressed: the third segment stands for all the bytes of the pushkey
only when none of them is dropped, ends the segment or is part of something else. -/
theorem plain_of_addressesToken
    (h : AddressesToken (pathState [utf8 "3".toList, utf8 "device".toList] []
      (cleanEnd pushkey.toList)) pushkey) : Plain pushkey := by
  obtain ⟨-, segment, hpath, hdecode⟩ := h
  have hbytes : percentDecode segment = utf8 pushkey.toList := by
    rw [hdecode]
    exact toList_toUTF8 pushkey
  have hmem : segment ∈ (pathState [utf8 "3".toList, utf8 "device".toList] []
      (cleanEnd pushkey.toList)).path := by
    rw [hpath]
    simp
  rcases length_add_count_le_of_mem_pathState [] hmem with hfront | hle
  · -- the segment is one of those in front of it, and so is the pushkey
    simp only [List.mem_cons, List.not_mem_nil, or_false] at hfront
    rcases hfront with rfl | rfl
    · obtain rfl : "3" = pushkey := eq_of_utf8_eq hbytes
      exact plain_iff.mpr ⟨rfl, by simp [isDelimiter, isSlash], by decide, by decide, rfl⟩
    · obtain rfl : "device" = pushkey := eq_of_utf8_eq hbytes
      exact plain_iff.mpr ⟨rfl, by simp [isDelimiter, isSlash], by decide, by decide, rfl⟩
  · rw [hbytes, List.length_nil, Nat.zero_add] at hle
    obtain ⟨hclean, hdelimiter⟩ := cleanEnd_eq_of_length_le hle
    rw [hclean, pathState_of_not_isDelimiter hdelimiter] at hpath
    have hdouble : percentEncode pathSet (utf8 pushkey.toList) ∉ doubleDots := by
      intro hdots
      rw [endSegment, if_pos hdots] at hpath
      simp at hpath
    have hsingle : percentEncode pathSet (utf8 pushkey.toList) ∉ singleDots := by
      intro hdot
      rw [endSegment, if_neg hdouble, if_pos hdot] at hpath
      -- a dot leaves an empty segment, and the pushkey is not empty
      obtain rfl : [] = segment := by simpa using hpath
      rw [← hbytes] at hdot
      exact absurd hdot (by decide)
    rw [endSegment_of_notMem hdouble hsingle] at hpath
    obtain rfl : percentEncode pathSet (utf8 pushkey.toList) = segment := by simpa using hpath
    rw [percentDecode_percentEncode encodable_pathSet] at hbytes
    refine plain_iff.mpr ⟨hclean, hdelimiter, ?_, ?_, hbytes⟩
    · rintro rfl
      exact hsingle (by decide)
    · rintro rfl
      exact hdouble (by decide)

/-! ### The request -/

/-- Whatever URL without a path, a query and a fragment is configured, a request addresses the
device of its pushkey exactly when the pushkey is plain. -/
theorem addressesToken_iff (root : Origin parseAuthority) (app : ApnsApp) (n : Notification)
    (device : Device) :
    (∃ record, ({ app with apiRoot := root.text }.message n device).target parseAuthority =
      some record ∧ AddressesToken record.toParts device.pushkey) ↔ Plain device.pushkey := by
  rw [target_message]
  constructor
  · rintro ⟨record, hrecord, haddresses⟩
    obtain rfl := Option.some_inj.mp hrecord
    exact plain_of_addressesToken haddresses
  · intro h
    exact ⟨_, rfl, h.addressesToken⟩

/-- The production server of Apple. -/
def productionRoot : Origin fun _ text => some text where
  text := "https://api.push.apple.com"
  scheme := "https".toList
  authorityText := "api.push.apple.com".toList
  authority := "api.push.apple.com".toList
  reads := by decide
  authorityText_ne := by decide
  parses := rfl

/-- The request for the pushkey `abc#1` goes to the device `abc`. -/
theorem not_addressesToken :
    ¬ ∀ (app : ApnsApp) (n : Notification) (device : Device), ∃ record,
      ({ app with apiRoot := productionRoot.text }.message n device).target
        (fun _ text => some text) = some record ∧
          AddressesToken record.toParts device.pushkey := by
  intro h
  obtain ⟨record, hrecord, -, segment, hpath, hdecode⟩ :=
    h ⟨"", "", "", none, .alert⟩ { devices := [] } { appId := "app", pushkey := "abc#1" }
  rw [target_message] at hrecord
  obtain rfl := Option.some_inj.mp hrecord
  -- the number sign ends the path, and what is behind it is not sent
  have habc : (pathState [utf8 "3".toList, utf8 "device".toList] []
      (cleanEnd "abc#1".toList)).path =
        [utf8 "3".toList, utf8 "device".toList, utf8 "abc".toList] := rfl
  obtain rfl : utf8 "abc".toList = segment := by
    have hsegments := habc.symm.trans hpath
    simpa only [List.cons.injEq, true_and, and_true] using hsegments
  have hbytes : bytes "abc#1" = utf8 "abc#1".toList := toList_toUTF8 "abc#1"
  rw [hbytes] at hdecode
  exact absurd hdecode (by decide)

end Pincerbell
