import Mathlib.Data.List.DropRight
import Pincerbell.Support.PercentEncoding
import Pincerbell.Support.Utf8

/-!
# URLs with the schemes http and https

How the WHATWG URL standard reads an absolute URL with one of these schemes. What it makes of the
authority, which is the credentials, the host and the port, is a parameter.

* `pathState` — the path state with the query and the fragment after it. Dot segments are resolved,
  and what a path cannot contain is percent-encoded.
* `parse` — the whole parser.
* `Origin` — a URL without a path, a query and a fragment; `parse_origin_append` is what the parser
  makes of one with something appended.
* `length_add_count_le_of_mem_pathState` — a segment of the path does not stand for more bytes than
  there are in the text, apart from the delimiters.
-/

namespace UrlParser

open PercentEncoding Utf8

/-! ### Characters -/

def isC0ControlOrSpace (c : Char) : Bool := c.toNat ≤ 32

def isTabOrNewline (c : Char) : Bool := c == '\t' || c == '\n' || c == '\r'

/-- What separates the segments of a path. -/
def isSlash (c : Char) : Bool := c == '/' || c == '\\'

/-- What ends a segment of a path, and the authority. -/
def isDelimiter (c : Char) : Bool := isSlash c || c == '?' || c == '#'

/-- The controls and what is not ASCII. -/
def c0ControlSet (b : UInt8) : Bool := b.toNat < 32 || 126 < b.toNat

/-- Space, quotation mark, number sign, less-than and greater-than. -/
def querySet (b : UInt8) : Bool := c0ControlSet b || [32, 34, 35, 60, 62].contains b.toNat

/-- And the apostrophe. -/
def specialQuerySet (b : UInt8) : Bool := querySet b || b.toNat == 39

/-- Space, quotation mark, less-than, greater-than and grave accent. -/
def fragmentSet (b : UInt8) : Bool := c0ControlSet b || [32, 34, 60, 62, 96].contains b.toNat

/-- Those of a query, and question mark, circumflex, grave accent and braces. -/
def pathSet (b : UInt8) : Bool := querySet b || [63, 94, 96, 123, 125].contains b.toNat

/-! ### Path, query and fragment -/

/-- The segments that stand for the directory itself. -/
def singleDots : List (List UInt8) :=
  [[46], [37, 50, 101], [37, 50, 69]]

/-- The segments that stand for the directory above: two dots, encoded or not. -/
def doubleDots : List (List UInt8) :=
  singleDots.flatMap fun dot => singleDots.map fun dot' => dot ++ dot'

/-- What the buffer makes of the path, with or without a slash after it. -/
def endSegment (path : List (List UInt8)) (buffer : List UInt8) (slash : Bool) :
    List (List UInt8) :=
  if buffer ∈ doubleDots then path.dropLast ++ if slash then [] else [[]]
  else if buffer ∈ singleDots then path ++ if slash then [] else [[]]
  else path ++ [buffer]

/-- What comes after the authority. -/
structure Parts where
  path : List (List UInt8)
  query : Option (List UInt8) := none
  fragment : Option (List UInt8) := none
  deriving DecidableEq, Repr

/-- The fragment, if there is one. -/
def fragmentState : List Char → Option (List UInt8)
  | [] => none
  | _ :: cs => some (percentEncode fragmentSet (utf8 cs))

/-- The path state, with the segments so far and the buffer for the next one. -/
def pathState (path : List (List UInt8)) (buffer : List UInt8) : List Char → Parts
  | [] => { path := endSegment path buffer false }
  | c :: cs =>
    if isSlash c then pathState (endSegment path buffer true) [] cs
    else if c == '?' then
      { path := endSegment path buffer false
        query := some (percentEncode specialQuerySet (utf8 (cs.takeWhile (· != '#'))))
        fragment := fragmentState (cs.dropWhile (· != '#')) }
    else if c == '#' then
      { path := endSegment path buffer false, fragment := fragmentState (c :: cs) }
    else pathState path (buffer ++ percentEncode pathSet (String.utf8EncodeChar c)) cs

/-- The path state is entered after the first slash. -/
def pathStart : List Char → Parts
  | c :: cs => if isSlash c then pathState [] [] cs else pathState [] [] (c :: cs)
  | [] => pathState [] [] []

/-! ### The parser -/

/-- The scheme and what comes after its colon. -/
def readScheme (cs : List Char) : Option (List Char × List Char) :=
  match cs.dropWhile (· != ':') with
  | [] => none
  | _ :: rest =>
    let scheme := (cs.takeWhile (· != ':')).map Char.toLower
    if scheme = "http".toList ∨ scheme = "https".toList then some (scheme, rest) else none

/-- The scheme, the authority, and what comes after it. -/
def readOrigin (cs : List Char) : Option (List Char × List Char × List Char) := do
  let (scheme, rest) ← readScheme cs
  let rest := rest.dropWhile isSlash
  return (scheme, rest.takeWhile (!isDelimiter ·), rest.dropWhile (!isDelimiter ·))

/-- What is ignored at the end of a URL and inside of it. -/
def cleanEnd (cs : List Char) : List Char :=
  (cs.rdropWhile isC0ControlOrSpace).filter (!isTabOrNewline ·)

/-- A parsed URL. -/
structure Record (Authority : Type) extends Parts where
  scheme : List Char
  authority : Authority

section

variable {Authority : Type} (parseAuthority : List Char → List Char → Option Authority)

/-- The parser, without a base URL. -/
def parse (input : String) : Option (Record Authority) := do
  let (scheme, text, rest) ← readOrigin (cleanEnd (input.toList.dropWhile isC0ControlOrSpace))
  let authority ← parseAuthority scheme text
  return { pathStart rest with scheme, authority }

/-- A URL without a path, a query and a fragment. -/
structure Origin where
  text : String
  scheme : List Char
  authorityText : List Char
  authority : Authority
  /-- There is a scheme and an authority, and nothing else. -/
  reads : readOrigin ((text.toList.dropWhile isC0ControlOrSpace).filter (!isTabOrNewline ·)) =
    some (scheme, authorityText, [])
  authorityText_ne : authorityText ≠ []
  parses : parseAuthority scheme authorityText = some authority

end

variable {c : Char} {cs cs' : List Char} {path : List (List UInt8)} {buffer segment : List UInt8}
  {slash : Bool}

/-! ### Segments -/

/-- Nothing of a triple is encoded in a path. -/
theorem encodable_pathSet : Encodable pathSet := by
  refine ⟨rfl, ?_⟩
  intro b hb
  have hrange : 48 ≤ b.toNat ∧ b.toNat ≤ 57 ∨ 65 ≤ b.toNat ∧ b.toNat ≤ 70 ∨
      97 ≤ b.toNat ∧ b.toNat ≤ 102 := by
    rw [hexValue] at hb
    split_ifs at hb with h₁ h₂ h₃
    · exact Or.inl h₁
    · exact Or.inr (Or.inl h₂)
    · exact Or.inr (Or.inr h₃)
    · cases hb
  simp only [pathSet, querySet, c0ControlSet, List.contains_cons, List.contains_nil,
    Bool.or_eq_false_iff, decide_eq_false_iff_not, beq_eq_false_iff_ne,
    and_true]
  omega

/-- A dot segment stands for a dot, or for two of them. -/
theorem percentDecode_of_mem_singleDots (h : buffer ∈ singleDots) :
    percentDecode buffer = [46] := by
  revert buffer
  decide

theorem percentDecode_of_mem_doubleDots (h : buffer ∈ doubleDots) :
    percentDecode buffer = [46, 46] := by
  revert buffer
  decide

/-- A segment was there before, or it is the buffer, or it is what a dot segment leaves. -/
theorem mem_endSegment (h : segment ∈ endSegment path buffer slash) :
    segment ∈ path ∨ segment = [] ∨ segment = buffer := by
  -- an empty segment may stand for a dot segment
  have hempty : ∀ {l : List (List UInt8)}, segment ∈ l ++ (if slash then [] else [[]]) →
      segment ∈ l ∨ segment = [] := by
    intro l hmem
    cases slash with
    | false => simpa using hmem
    | true => exact Or.inl (by simpa using hmem)
  rw [endSegment] at h
  by_cases hdouble : buffer ∈ doubleDots
  · rw [if_pos hdouble] at h
    rcases hempty h with hmem | hnil
    · exact Or.inl (List.dropLast_subset path hmem)
    · exact Or.inr (Or.inl hnil)
  · rw [if_neg hdouble] at h
    by_cases hsingle : buffer ∈ singleDots
    · rw [if_pos hsingle] at h
      rcases hempty h with hmem | hnil
      · exact Or.inl hmem
      · exact Or.inr (Or.inl hnil)
    · rw [if_neg hsingle] at h
      rcases List.mem_append.mp h with hmem | hbuffer
      · exact Or.inl hmem
      · exact Or.inr (Or.inr (List.mem_singleton.mp hbuffer))

/-- A buffer that is no dot segment is the next segment. -/
theorem endSegment_of_notMem (hdouble : buffer ∉ doubleDots) (hsingle : buffer ∉ singleDots) :
    endSegment path buffer slash = path ++ [buffer] := by
  rw [endSegment, if_neg hdouble, if_neg hsingle]

/-- Without delimiters, all the text goes into the buffer. -/
theorem pathState_append (hcs : ∀ c ∈ cs, isDelimiter c = false) :
    pathState path buffer (cs ++ cs') =
      pathState path (buffer ++ percentEncode pathSet (utf8 cs)) cs' := by
  induction cs generalizing buffer with
  | nil => simp
  | cons c cs ih =>
    have hc := hcs c List.mem_cons_self
    simp only [isDelimiter, Bool.or_eq_false_iff] at hc
    obtain ⟨⟨hslash, hquery⟩, hfragment⟩ := hc
    rw [List.cons_append, pathState]
    simp only [hslash, hquery, hfragment, Bool.false_eq_true, if_false]
    rw [ih fun d hd => hcs d (List.mem_cons_of_mem c hd), utf8_cons, percentEncode_append,
      List.append_assoc]

/-- A text without delimiters is one segment, with no query after it. -/
theorem pathState_of_not_isDelimiter (hcs : ∀ c ∈ cs, isDelimiter c = false) :
    pathState path [] cs =
      { path := endSegment path (percentEncode pathSet (utf8 cs)) false } := by
  have happend : pathState path [] (cs ++ []) =
      pathState path ([] ++ percentEncode pathSet (utf8 cs)) [] := pathState_append hcs
  rw [List.append_nil, List.nil_append] at happend
  rw [happend, pathState]

/-- Every character has at least one byte. -/
theorem length_le_length_utf8 (cs : List Char) : cs.length ≤ (utf8 cs).length := by
  induction cs with
  | nil => exact Nat.le_refl 0
  | cons c cs ih =>
    have hpos : 0 < (String.utf8EncodeChar c).length := by
      rw [String.length_utf8EncodeChar]
      exact c.utf8Size_pos
    rw [utf8_cons, List.length_append, List.length_cons]
    omega

/-- No more delimiters than bytes. -/
theorem countP_isDelimiter_le (cs : List Char) : cs.countP isDelimiter ≤ (utf8 cs).length :=
  List.countP_le_length.trans (length_le_length_utf8 cs)

/-- A segment that ends with the buffer was there before, or it does not stand for more bytes than
the buffer does. -/
theorem length_percentDecode_le_of_mem_endSegment {bs : List UInt8}
    (h : segment ∈ endSegment path (percentEncode pathSet bs) slash) :
    segment ∈ path ∨ (percentDecode segment).length ≤ bs.length := by
  rcases mem_endSegment h with hpath | rfl | rfl
  · exact Or.inl hpath
  · exact Or.inr (Nat.zero_le _)
  · right
    rw [percentDecode_percentEncode encodable_pathSet]
    exact length_percentDecode_le bs

/-- Each segment of the path was there before, or it stands for bytes of the text, of which no
delimiter is one. -/
theorem length_add_count_le_of_mem_pathState (bs : List UInt8)
    (h : segment ∈ (pathState path (percentEncode pathSet bs) cs).path) :
    segment ∈ path ∨
      (percentDecode segment).length + cs.countP isDelimiter ≤ bs.length + (utf8 cs).length := by
  -- what a segment that ends here stands for
  have hend : ∀ {path slash} {bs : List UInt8} {cs},
      segment ∈ endSegment path (percentEncode pathSet bs) slash → segment ∈ path ∨
        (percentDecode segment).length + cs.countP isDelimiter ≤ bs.length + (utf8 cs).length := by
    intro path slash bs cs hmem
    have hcount := countP_isDelimiter_le cs
    apply (length_percentDecode_le_of_mem_endSegment hmem).imp_right
    omega
  induction cs generalizing path bs with
  | nil => exact hend h
  | cons c cs ih =>
    have hbytes : (utf8 (c :: cs)).length =
        (String.utf8EncodeChar c).length + (utf8 cs).length := by
      rw [utf8_cons, List.length_append]
    rw [pathState] at h
    split_ifs at h with hslash hquery hfragment
    · -- the segment is one of those before the slash, or of those after it
      rcases ih [] h with hmem | hle
      · exact hend hmem
      · right
        have hcount : (c :: cs).countP isDelimiter = cs.countP isDelimiter + 1 :=
          List.countP_cons_of_pos (by simp [isDelimiter, hslash])
        have hpos : 1 ≤ (String.utf8EncodeChar c).length := by
          rw [String.length_utf8EncodeChar]
          exact c.utf8Size_pos
        rw [List.length_nil] at hle
        omega
    · exact hend h
    · exact hend h
    · rw [← percentEncode_append] at h
      apply (ih _ h).imp_right
      have hcount : (c :: cs).countP isDelimiter = cs.countP isDelimiter :=
        List.countP_cons_of_neg (by simp_all [isDelimiter])
      rw [hcount, hbytes, List.length_append]
      omega

/-! ### Something appended to an origin -/

/-- What is in front of a character that stays is not touched from the end. -/
theorem rdropWhile_append_cons {α : Type*} {p : α → Bool} {x : α} (hx : p x = false)
    (l l' : List α) : (l ++ x :: l').rdropWhile p = l ++ x :: l'.rdropWhile p := by
  induction l' using List.reverseRecOn with
  | nil => rw [List.rdropWhile_concat_neg p l x (by simp [hx]), List.rdropWhile_nil]
  | append_singleton l' y ih =>
    rw [← List.cons_append, ← List.append_assoc]
    by_cases hy : p y = true
    · rw [List.rdropWhile_concat_pos p _ y hy, List.rdropWhile_concat_pos p _ y hy, ih]
    · rw [List.rdropWhile_concat_neg p _ y hy, List.rdropWhile_concat_neg p _ y hy]
      simp

/-- A tab or a newline is a control. -/
theorem isTabOrNewline_eq_false (hc : isC0ControlOrSpace c = false) : isTabOrNewline c = false := by
  cases hnewline : isTabOrNewline c with
  | false => rfl
  | true =>
    simp only [isTabOrNewline, Bool.or_eq_true, beq_iff_eq] at hnewline
    rcases hnewline with (rfl | rfl) | rfl <;> cases hc

theorem cleanEnd_append_cons (hc : isC0ControlOrSpace c = false) (cs cs' : List Char) :
    cleanEnd (cs ++ c :: cs') = cs.filter (!isTabOrNewline ·) ++ c :: cleanEnd cs' := by
  rw [cleanEnd, cleanEnd, rdropWhile_append_cons hc, List.filter_append,
    List.filter_cons_of_pos (by simp [isTabOrNewline_eq_false hc])]

/-- What is kept is part of the text. -/
theorem cleanEnd_sublist (cs : List Char) : (cleanEnd cs).Sublist cs :=
  List.filter_sublist.trans (List.rdropWhile_prefix isC0ControlOrSpace cs).sublist

/-- Everything is kept of a text without tabs and newlines that does not end with a control or a
space. -/
theorem cleanEnd_eq_self_iff :
    cleanEnd cs = cs ↔ (∀ c ∈ cs, isTabOrNewline c = false) ∧
      ∀ c, cs.getLast? = some c → isC0ControlOrSpace c = false := by
  have hlast : cs.rdropWhile isC0ControlOrSpace = cs ↔
      ∀ c, cs.getLast? = some c → isC0ControlOrSpace c = false := by
    rw [List.rdropWhile_eq_self_iff]
    constructor
    · intro h c hc
      obtain ⟨hne, rfl⟩ := List.mem_getLast?_eq_getLast hc
      simpa using h hne
    · intro h hne
      simpa using h _ (List.getLast?_eq_some_getLast hne)
  rw [← hlast, cleanEnd]
  constructor
  · intro h
    -- nothing is dropped in either step
    have hprefix := List.rdropWhile_prefix isC0ControlOrSpace cs
    have hle : cs.length ≤ (cs.rdropWhile isC0ControlOrSpace).length := by
      conv_lhs => rw [← h]
      exact List.length_filter_le _ _
    have hself := hprefix.eq_of_length_le hle
    rw [hself, List.filter_eq_self] at h
    exact ⟨fun c hc => by simpa using h c hc, hself⟩
  · rintro ⟨hnewline, hself⟩
    rw [hself, List.filter_eq_self]
    intro c hc
    simp [hnewline c hc]

/-- A predicate that fails in the front part decides there. -/
theorem dropWhile_append_of_ne_nil {α : Type*} {p : α → Bool} {l : List α}
    (hl : l.dropWhile p ≠ []) (l' : List α) :
    (l ++ l').dropWhile p = l.dropWhile p ++ l' ∧ (l ++ l').takeWhile p = l.takeWhile p := by
  induction l with
  | nil => exact absurd rfl hl
  | cons x l ih =>
    cases hx : p x with
    | false => simp [hx]
    | true =>
      rw [List.dropWhile_cons_of_pos hx] at hl
      simpa [hx] using ih hl

/-- The scheme does not depend on what comes after the colon. -/
theorem readScheme_append {scheme rest : List Char} (h : readScheme cs = some (scheme, rest))
    (cs' : List Char) : readScheme (cs ++ cs') = some (scheme, rest ++ cs') := by
  rw [readScheme] at h ⊢
  split at h
  next => cases h
  next _ _ heq =>
    have hne : cs.dropWhile (· != ':') ≠ [] := by simp [heq]
    obtain ⟨hdrop, htake⟩ := dropWhile_append_of_ne_nil hne cs'
    rw [hdrop, htake, heq]
    dsimp only at h
    split at h
    next hscheme =>
      obtain ⟨rfl, rfl⟩ := Prod.mk.inj (Option.some.inj h)
      simp only [List.cons_append]
      rw [if_pos hscheme]
    next => cases h

/-- An authority with nothing after it ends at the first delimiter that is appended. -/
theorem readOrigin_append_cons {scheme text : List Char}
    (h : readOrigin cs = some (scheme, text, [])) (htext : text ≠ []) (hc : isDelimiter c = true)
    (cs' : List Char) : readOrigin (cs ++ c :: cs') = some (scheme, text, c :: cs') := by
  simp only [readOrigin, Option.bind_eq_bind, Option.bind_eq_some_iff, Option.pure_def] at h ⊢
  obtain ⟨⟨scheme', rest⟩, hscheme, hrest⟩ := h
  simp only [Option.some.injEq, Prod.mk.injEq] at hrest
  obtain ⟨rfl, rfl, hnone⟩ := hrest
  refine ⟨(scheme', rest ++ c :: cs'), readScheme_append hscheme _, ?_⟩
  -- the text after the slashes is the authority, with no delimiter in it
  have hall : ∀ d ∈ rest.dropWhile isSlash, (!isDelimiter d) = true :=
    List.dropWhile_eq_nil_iff.mp hnone
  have hne : rest.dropWhile isSlash ≠ [] := by
    intro hnil
    rw [hnil] at htext
    exact htext rfl
  have hslashes := (dropWhile_append_of_ne_nil hne (c :: cs')).1
  simp only [hslashes]
  rw [List.takeWhile_append_of_pos hall, List.dropWhile_append_of_pos hall,
    List.takeWhile_cons_of_neg (by simp [hc]), List.dropWhile_cons_of_neg (by simp [hc]),
    List.append_nil, List.takeWhile_eq_self_iff.mpr hall]

/-- With a slash and a path appended to it, an origin keeps its scheme and its authority. -/
theorem parse_origin_append {Authority : Type}
    {parseAuthority : List Char → List Char → Option Authority} (root : Origin parseAuthority)
    (s : String) :
    parse parseAuthority (root.text ++ "/" ++ s) =
      some { pathState [] [] (cleanEnd s.toList) with
        scheme := root.scheme, authority := root.authority } := by
  -- the origin does not consist of controls and spaces
  have htrim : root.text.toList.dropWhile isC0ControlOrSpace ≠ [] := by
    intro hnil
    have hreads := root.reads
    rw [hnil] at hreads
    cases hreads
  -- so nothing is stripped off in front of the slash
  have hinput : cleanEnd ((root.text ++ "/" ++ s).toList.dropWhile isC0ControlOrSpace) =
      (root.text.toList.dropWhile isC0ControlOrSpace).filter (!isTabOrNewline ·) ++
        '/' :: cleanEnd s.toList := by
    rw [String.toList_append, String.toList_append, List.append_assoc,
      (dropWhile_append_of_ne_nil htrim _).1]
    show cleanEnd (_ ++ '/' :: s.toList) = _
    exact cleanEnd_append_cons (by decide) _ _
  rw [parse, hinput, readOrigin_append_cons root.reads root.authorityText_ne (by decide)]
  simp only [Option.bind_eq_bind, Option.bind_some, root.parses]
  rfl

end UrlParser
