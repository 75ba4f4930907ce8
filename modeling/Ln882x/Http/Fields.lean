import Ln882x.Http.Response

/-! Header lines with blanks around the value. The tokenizer takes tabs and spaces off both
sides of a token, but only a space ends one, so that the name and the value are told apart
exactly if there is a space between them. -/

namespace Ln882x.Http

open Nor (Bytes)

/-! ### Header lines -/

/-- The names that `http_parse_header_field` looks for. -/
inductive HeaderName where
  | setCookie | location | contentType | contentLength | transferEncoding | connection

def fieldResponseContentTypeMaxLen : ℕ := 256

def fieldResponseLocationMaxLen : ℕ := 256

def fieldResponseCookieMaxLen : ℕ := 256

namespace HeaderName

def text : HeaderName → Bytes
  | setCookie => ascii "set-cookie"
  | location => ascii "location"
  | contentType => ascii "content-type"
  | contentLength => ascii "content-length"
  | transferEncoding => ascii "transfer-encoding"
  | connection => ascii "connection"

/-- The member of the response that holds a copy of the value, and the size of its memory. -/
def destination : HeaderName → Option ((HttpHeader → Bytes) × ℕ)
  | setCookie => some (HttpHeader.cookie, fieldResponseCookieMaxLen)
  | location => some (HttpHeader.location, fieldResponseLocationMaxLen)
  | contentType => some (HttpHeader.contentType, fieldResponseContentTypeMaxLen)
  | contentLength | transferEncoding | connection => none

/-- What a value that is found does to the response. -/
def set (name : HeaderName) (r : HttpHeader) (value : Bytes) : HttpHeader :=
  match name with
  | setCookie => { r with cookie := value }
  | location => { r with location := value }
  | contentType => { r with contentType := value }
  | contentLength => { r with contentLength := int32 (atoi value) }
  | transferEncoding => if startsWithNoCase value (ascii "chunked") then { r with chunked := true } else r
  | connection => if startsWithNoCase value (ascii "close") then { r with close := true } else r

end HeaderName

/-- A header line with a name in any case, blanks on both sides of the value and none in it. -/
structure HeaderLine where
  name : HeaderName
  spelled : Bytes
  blanks : Bytes
  value : Bytes
  trail : Bytes
  spelled_name : spelled.map toLower = name.text
  blanks_blank : ∀ c ∈ blanks, isBlank c = true
  trail_blank : ∀ c ∈ trail, isBlank c = true
  value_plain : ∀ c ∈ value, isBlank c = false
  value_length : value.length < 255

namespace HeaderLine

def bytes (l : HeaderLine) : Bytes := l.spelled ++ [colon] ++ l.blanks ++ (l.value ++ l.trail)

def withOneSpace (l : HeaderLine) : HeaderLine :=
  { l with
    blanks := [space], trail := []
    blanks_blank := List.forall_mem_singleton.mpr (by decide)
    trail_blank := by simp }

/-- The line does what it does with exactly one space, and a value to be kept is kept whole
with its final zero. -/
def Tolerated (l : HeaderLine) : Prop :=
  ∀ r, (httpParseHeaderField r l.bytes).2 = (httpParseHeaderField r l.withOneSpace.bytes).2 ∧
    ∀ d ∈ l.name.destination, d.1 (httpParseHeaderField r l.bytes).2 = l.value ∧ l.value.length < d.2

end HeaderLine

/-! ### Tokens -/

theorem skipBlanks_append {blanks : Bytes} (h : ∀ c ∈ blanks, isBlank c = true) (s : Bytes) :
    skipBlanks (blanks ++ s) = skipBlanks s := by
  induction blanks with
  | nil => rfl
  | cons c cs ih =>
    have hc : isBlank c = true := h c List.mem_cons_self
    have hend : ¬ (c = lf ∨ c = 0) := by
      rintro (rfl | rfl) <;> exact absurd hc (by decide)
    rw [List.cons_append, skipBlanks, if_neg hend, if_pos hc]
    exact ih fun x hx => h x (List.mem_cons_of_mem c hx)

theorem skipBlanks_blanks {blanks : Bytes} (h : ∀ c ∈ blanks, isBlank c = true) : skipBlanks blanks = none := by
  have := skipBlanks_append h []
  rwa [List.append_nil] at this

theorem strtoken_append {blanks : Bytes} (h : ∀ c ∈ blanks, isBlank c = true) (s : Bytes) (size : ℕ) :
    strtoken (blanks ++ s) size = strtoken s size := by
  rw [strtoken, strtoken, skipBlanks_append h]

theorem strtoken_eq_none {s : Bytes} (h : skipBlanks s = none) (size : ℕ) : strtoken s size = none := by
  rw [strtoken, h]

/-- What ends the scan for the end of a token. -/
def EndsToken (rest : Bytes) : Prop := ∀ c, rest.head? = some c → c = space ∨ c = lf ∨ c = 0

/-- A token is scanned up to `rest`, with the tabs behind it. -/
theorem strtoken_run {run rest : Bytes} (hstart : skipBlanks (run ++ rest) = some (run ++ rest))
    (hrun : ∀ c ∈ run, c ≠ space ∧ c ≠ lf ∧ c ≠ 0) (hrest : EndsToken rest) (size : ℕ) :
    strtoken (run ++ rest) size = some ((run.rdropWhile isBlank).take (size - 1),
      if rest.head? = some space then rest.tail else rest) := by
  have htake : (run ++ rest).takeWhile (fun c => c ≠ space ∧ c ≠ lf ∧ c ≠ 0) = run := by
    rw [List.takeWhile_append_of_pos fun c hc => decide_eq_true (hrun c hc)]
    cases rest with
    | nil => simp
    | cons c cs =>
      rw [List.takeWhile_cons_of_neg, List.append_nil]
      rcases hrest c rfl with rfl | rfl | rfl <;> decide
  simp only [strtoken, hstart, htake, List.drop_left]

/-- Behind the space that ends a token the scan for the next one goes on. -/
theorem skipBlanks_behind (rest : Bytes) :
    skipBlanks (if rest.head? = some space then rest.tail else rest) = skipBlanks rest := by
  split
  · rename_i h
    obtain ⟨tail, rfl⟩ := List.head?_eq_some_iff.mp h
    exact (skipBlanks_append (List.forall_mem_singleton.mpr (by decide : isBlank space = true)) tail).symm
  · rfl

theorem rdropWhile_blanks {token pad : Bytes} (htoken : ∀ c ∈ token, isBlank c = false)
    (hpad : ∀ c ∈ pad, isBlank c = true) : (token ++ pad).rdropWhile isBlank = token := by
  have hself : token.rdropWhile isBlank = token :=
    List.rdropWhile_eq_self_iff.mpr fun hne => by simp [htoken _ (List.getLast_mem hne)]
  rw [List.rdropWhile, List.reverse_append,
    List.dropWhile_append_of_pos fun c hc => hpad c (List.mem_reverse.mp hc)]
  exact hself

/-! ### The parts of a line -/

theorem eq_tab_of_blank {c : UInt8} (h : isBlank c = true) (hc : c ≠ space) : c = tab := by
  rw [isBlank, decide_eq_true_eq] at h
  exact h.resolve_left hc

theorem letter_plain {c : UInt8} (h : (97 ≤ toLower c ∧ toLower c ≤ 122) ∨ toLower c = 45) :
    c ≠ space ∧ c ≠ lf ∧ c ≠ 0 ∧ isBlank c = false :=
  forall_byte (P := fun c => ((97 ≤ toLower c ∧ toLower c ≤ 122) ∨ toLower c = 45) →
    c ≠ space ∧ c ≠ lf ∧ c ≠ 0 ∧ isBlank c = false) (by decide +kernel) c h

theorem HeaderName.text_letters (name : HeaderName) : ∀ c ∈ name.text, (97 ≤ c ∧ c ≤ 122) ∨ c = 45 := by
  cases name <;> decide +kernel

theorem HeaderName.text_length (name : HeaderName) : name.text.length ≤ 17 := by
  cases name <;> decide

namespace HeaderLine

variable (l : HeaderLine)

/-- The name with its colon, the first token of a line. -/
def key : Bytes := l.spelled ++ [colon]

/-- The value up to where a line ends for the tokenizer. -/
def shown : Bytes := l.value.takeWhile fun c => c ≠ lf ∧ c ≠ 0

theorem key_plain {c : UInt8} (hc : c ∈ l.key) : (c ≠ space ∧ c ≠ lf ∧ c ≠ 0) ∧ isBlank c = false := by
  rcases List.mem_append.mp hc with hc | hc
  · have hmem : toLower c ∈ l.name.text := l.spelled_name ▸ List.mem_map_of_mem hc
    obtain ⟨hsp, hlf, h0, hblank⟩ := letter_plain (l.name.text_letters _ hmem)
    exact ⟨⟨hsp, hlf, h0⟩, hblank⟩
  · rw [List.mem_singleton.mp hc]
    decide

theorem key_length : l.key.length ≤ 18 := by
  have hlen : l.spelled.length = l.name.text.length := by rw [← l.spelled_name, List.length_map]
  have := l.name.text_length
  rw [key, List.length_append, List.length_singleton]
  omega

theorem shown_plain {c : UInt8} (hc : c ∈ l.shown) : (c ≠ space ∧ c ≠ lf ∧ c ≠ 0) ∧ isBlank c = false := by
  have hplain := l.value_plain c ((List.takeWhile_sublist _).subset hc)
  have hend : c ≠ lf ∧ c ≠ 0 := by simpa using List.mem_takeWhile_imp hc
  refine ⟨⟨?_, hend⟩, hplain⟩
  rintro rfl
  exact absurd hplain (by decide)

theorem shown_length : l.shown.length < 255 :=
  lt_of_le_of_lt (List.takeWhile_sublist _).length_le l.value_length

theorem shown_eq_iff : l.shown = l.value ↔ lf ∉ l.value ∧ 0 ∉ l.value := by
  rw [shown, List.takeWhile_eq_self_iff]
  constructor
  · intro h
    exact ⟨fun hmem => (of_decide_eq_true (h lf hmem)).1 rfl, fun hmem => (of_decide_eq_true (h 0 hmem)).2 rfl⟩
  · rintro ⟨hlf, h0⟩ c hc
    refine decide_eq_true ⟨?_, ?_⟩
    · rintro rfl
      exact hlf hc
    · rintro rfl
      exact h0 hc

/-- What stands behind the value: tabs, and something that ends the token and holds no other. -/
theorem value_split : ∃ pad rest, l.value ++ l.trail = l.shown ++ pad ++ rest ∧ (∀ c ∈ pad, c = tab) ∧
    EndsToken rest ∧ skipBlanks rest = none := by
  have hvalue : l.shown ++ l.value.dropWhile (fun c => c ≠ lf ∧ c ≠ 0) = l.value := List.takeWhile_append_dropWhile
  cases hmore : l.value.dropWhile fun c => c ≠ lf ∧ c ≠ 0 with
  | nil =>
    rw [hmore, List.append_nil] at hvalue
    refine ⟨l.trail.takeWhile (· ≠ space), l.trail.dropWhile (· ≠ space), ?_, ?_, ?_, ?_⟩
    · rw [← hvalue, List.append_assoc, List.takeWhile_append_dropWhile]
    · intro c hc
      have hsp : c ≠ space := by simpa using List.mem_takeWhile_imp hc
      exact eq_tab_of_blank (l.trail_blank c ((List.takeWhile_sublist _).subset hc)) hsp
    · intro c hc
      have := List.head?_dropWhile_not (· ≠ space) l.trail
      rw [hc] at this
      exact .inl (by simpa using this)
    · exact skipBlanks_blanks fun c hc => l.trail_blank c ((List.dropWhile_sublist _).subset hc)
  | cons c more =>
    have hc : c = lf ∨ c = 0 := by
      have := List.head?_dropWhile_not (fun c => decide (c ≠ lf ∧ c ≠ 0)) l.value
      rw [hmore] at this
      simpa [or_iff_not_imp_left] using this
    refine ⟨[], c :: more ++ l.trail, ?_, by simp, ?_, ?_⟩
    · rw [← hvalue, hmore, List.append_nil, List.append_assoc]
    · rintro _ ⟨⟩
      exact .inr hc
    · rw [List.cons_append, skipBlanks, if_pos hc]

/-! ### Parsing a line -/

theorem skipBlanks_key (s : Bytes) : skipBlanks (l.key ++ s) = some (l.key ++ s) := by
  obtain ⟨c, cs, hkey⟩ := List.exists_cons_of_ne_nil (show l.key ≠ [] by simp [key])
  obtain ⟨⟨-, hlf, h0⟩, hblank⟩ := l.key_plain (hkey ▸ List.mem_cons_self)
  rw [hkey, List.cons_append]
  exact skipBlanks_token ⟨h0, hlf, hblank⟩

/-- The name is the first token if a space stands before the value. -/
theorem strtoken_key (h : space ∈ l.blanks) : ∃ more, (∀ c ∈ more, isBlank c = true) ∧
    strtoken l.bytes 256 = some (l.key, more ++ (l.value ++ l.trail)) := by
  obtain ⟨tabs, more, hblanks, htabs⟩ := List.eq_append_cons_of_mem h
  have hmem {c : UInt8} (hc : c ∈ tabs ++ space :: more) : isBlank c = true := l.blanks_blank c (hblanks ▸ hc)
  have htab : ∀ c ∈ tabs, c = tab := by
    intro c hc
    exact eq_tab_of_blank (hmem (List.mem_append_left _ hc)) fun hsp => htabs (hsp ▸ hc)
  have hbytes : l.bytes = (l.key ++ tabs) ++ space :: (more ++ (l.value ++ l.trail)) := by
    simp only [bytes, key, hblanks, List.append_assoc, List.cons_append]
  have hrun : ∀ c ∈ l.key ++ tabs, c ≠ space ∧ c ≠ lf ∧ c ≠ 0 := by
    intro c hc
    rcases List.mem_append.mp hc with hc | hc
    · exact (l.key_plain hc).1
    · rw [htab c hc]
      decide
  have hstrip : (l.key ++ tabs).rdropWhile isBlank = l.key :=
    rdropWhile_blanks (fun c hc => (l.key_plain hc).2) fun c hc => hmem (List.mem_append_left _ hc)
  have hstart := l.skipBlanks_key (tabs ++ space :: (more ++ (l.value ++ l.trail)))
  rw [← List.append_assoc] at hstart
  refine ⟨more, fun c hc => hmem (List.mem_append_right _ (List.mem_cons_of_mem _ hc)), ?_⟩
  rw [hbytes, strtoken_run hstart hrun (fun c hc => .inl (Option.some.inj hc).symm), hstrip,
    List.take_of_length_le (l.key_length.trans (by decide))]
  rfl

/-- The second token is the value, as far as it is seen. -/
theorem strtoken_value {more : Bytes} (hmore : ∀ c ∈ more, isBlank c = true) :
    (strtoken (more ++ (l.value ++ l.trail)) 256).map Prod.fst = if l.shown = [] then none else some l.shown := by
  obtain ⟨pad, rest, hsplit, hpad, hrest, hnone⟩ := l.value_split
  have hblank : ∀ c ∈ pad, isBlank c = true := by
    intro c hc
    rw [hpad c hc]
    decide
  rw [strtoken_append hmore, hsplit]
  by_cases hshown : l.shown = []
  · rw [if_pos hshown, hshown, List.nil_append, strtoken_append hblank, strtoken_eq_none hnone]
    rfl
  · have hstart : skipBlanks (l.shown ++ pad ++ rest) = some (l.shown ++ pad ++ rest) := by
      obtain ⟨c, cs, hcons⟩ := List.exists_cons_of_ne_nil hshown
      obtain ⟨⟨-, hlf, h0⟩, hc⟩ := l.shown_plain (hcons ▸ List.mem_cons_self)
      rw [hcons, List.cons_append, List.cons_append]
      exact skipBlanks_token ⟨h0, hlf, hc⟩
    have hrun : ∀ c ∈ l.shown ++ pad, c ≠ space ∧ c ≠ lf ∧ c ≠ 0 := by
      intro c hc
      rcases List.mem_append.mp hc with hc | hc
      · exact (l.shown_plain hc).1
      · rw [hpad c hc]
        decide
    have hstrip := rdropWhile_blanks (fun c hc => (l.shown_plain hc).2) hblank
    rw [if_neg hshown, strtoken_run hstart hrun hrest, hstrip,
      List.take_of_length_le (Nat.le_of_lt_succ (l.shown_length.trans (by decide)))]
    rfl

/-- Without a space the value is a part of the first token, and no other is found. -/
theorem parse_tight (h : space ∉ l.blanks) (r : HttpHeader) : httpParseHeaderField r l.bytes = (-1, r) := by
  obtain ⟨pad, rest, hsplit, hpad, hrest, hnone⟩ := l.value_split
  have hbytes : l.bytes = l.key ++ (l.blanks ++ l.shown ++ pad) ++ rest := by
    simp only [bytes, key, hsplit, List.append_assoc]
  have hrun : ∀ c ∈ l.key ++ (l.blanks ++ l.shown ++ pad), c ≠ space ∧ c ≠ lf ∧ c ≠ 0 := by
    intro c hc
    simp only [List.mem_append] at hc
    rcases hc with hc | (hc | hc) | hc
    · exact (l.key_plain hc).1
    · have hsp : c ≠ space := fun hsp => h (hsp ▸ hc)
      rw [eq_tab_of_blank (l.blanks_blank c hc) hsp]
      decide
    · exact (l.shown_plain hc).1
    · rw [hpad c hc]
      decide
  have hstart := l.skipBlanks_key (l.blanks ++ l.shown ++ pad ++ rest)
  rw [← List.append_assoc] at hstart
  have hbehind := strtoken_eq_none ((skipBlanks_behind rest).trans hnone) 256
  simp only [httpParseHeaderField, hbytes, strtoken_run hstart hrun hrest, hbehind]

theorem startsWithNoCase_key (lit : Bytes) :
    startsWithNoCase l.key lit = startsWithNoCase (l.name.text ++ [colon]) lit := by
  have hlower : ∀ s : Bytes, (s.map toLower).map toLower = s.map toLower := by
    intro s
    rw [List.map_map]
    refine List.map_congr_left fun c _ => ?_
    exact forall_byte (P := fun c => toLower (toLower c) = toLower c) (by decide +kernel) c
  simp only [startsWithNoCase, List.map_take, key, List.map_append, ← l.spelled_name, hlower]

/-- With a space the value, as far as it is seen, is set. -/
theorem parse_spaced (h : space ∈ l.blanks) (r : HttpHeader) :
    (httpParseHeaderField r l.bytes).2 = if l.shown = [] then r else l.name.set r l.shown := by
  obtain ⟨more, hmore, hkey⟩ := l.strtoken_key h
  have hvalue := l.strtoken_value hmore
  by_cases hshown : l.shown = []
  · rw [if_pos hshown, Option.map_eq_none_iff] at hvalue
    rw [if_pos hshown]
    simp only [httpParseHeaderField, hkey, hvalue]
  · rw [if_neg hshown, Option.map_eq_some_iff] at hvalue
    obtain ⟨⟨_, behind⟩, hvalue, rfl⟩ := hvalue
    rw [if_neg hshown]
    simp only [httpParseHeaderField, hkey, hvalue, startsWithNoCase_key]
    cases l.name <;> rfl

end HeaderLine

/-! ### Lines that are tolerated -/

namespace HeaderName

variable {name : HeaderName} {v : Bytes}

/-- What a line with one space does. -/
def effect (name : HeaderName) (r : HttpHeader) (v : Bytes) : HttpHeader := if v = [] then r else name.set r v

/-- A value that changes no response. A value that is to be kept always does. -/
def Idle (name : HeaderName) (v : Bytes) : Prop :=
  match name with
  | setCookie | location | contentType => False
  | contentLength => v = []
  | transferEncoding => startsWithNoCase v (ascii "chunked") = false
  | connection => startsWithNoCase v (ascii "close") = false

theorem get_set {d : (HttpHeader → Bytes) × ℕ} (hd : d ∈ name.destination) (r : HttpHeader) (v : Bytes) :
    d.1 (name.set r v) = v := by
  cases name <;> cases hd <;> rfl

theorem destination_size {d : (HttpHeader → Bytes) × ℕ} (hd : d ∈ name.destination) : d.2 = 256 := by
  cases name <;> cases hd <;> rfl

/-- A response can hold any value. -/
theorem exists_get {d : (HttpHeader → Bytes) × ℕ} (hd : d ∈ name.destination) (v : Bytes) :
    ∃ r : HttpHeader, d.1 r = v :=
  ⟨name.set httpinfoNew.response v, get_set hd _ v⟩

theorem exists_effect_ne {d : (HttpHeader → Bytes) × ℕ} (hd : d ∈ name.destination) (hv : v ≠ []) :
    ∃ r, name.effect r v ≠ r := by
  obtain ⟨r, hr⟩ := exists_get hd []
  refine ⟨r, fun h => hv ?_⟩
  rw [effect, if_neg hv] at h
  rw [← get_set hd r v, h, hr]

theorem effect_of_idle (h : name.Idle v) (r : HttpHeader) : name.effect r v = r := by
  by_cases hv : v = []
  · rw [effect, if_pos hv]
  rw [effect, if_neg hv]
  cases name with
  | setCookie | location | contentType => cases h
  | contentLength => exact absurd h hv
  | transferEncoding | connection =>
    rw [Idle] at h
    rw [set, h]
    rfl

theorem idle_of_effect (hkeep : name.destination.isSome → v ≠ []) (h : ∀ r, name.effect r v = r) :
    name.Idle v := by
  cases hd : name.destination with
  | some d =>
    obtain ⟨r, hr⟩ := exists_effect_ne hd (hkeep (by rw [hd]; rfl))
    exact absurd (h r) hr
  | none =>
    by_contra hidle
    have hv : v ≠ [] := by
      rintro rfl
      cases name with
      | setCookie | location | contentType => cases hd
      | contentLength => exact hidle rfl
      | transferEncoding | connection => exact hidle rfl
    simp only [effect, if_neg hv] at h
    cases name with
    | setCookie | location | contentType => cases hd
    | contentLength =>
      have := congrArg HttpHeader.contentLength
        (h { httpinfoNew.response with contentLength := int32 (atoi v) + 1 })
      simp [set] at this
    | transferEncoding =>
      rw [Idle, Bool.not_eq_false] at hidle
      have := h httpinfoNew.response
      rw [set, if_pos hidle] at this
      cases this
    | connection =>
      rw [Idle, Bool.not_eq_false] at hidle
      have := h httpinfoNew.response
      rw [set, if_pos hidle] at this
      cases this

end HeaderName

namespace HeaderLine

variable (l : HeaderLine)

theorem parse_bytes (r : HttpHeader) :
    (httpParseHeaderField r l.bytes).2 = if space ∈ l.blanks then l.name.effect r l.shown else r := by
  split
  · rename_i h
    exact l.parse_spaced h r
  · rename_i h
    rw [l.parse_tight h]

theorem parse_withOneSpace (r : HttpHeader) :
    (httpParseHeaderField r l.withOneSpace.bytes).2 = l.name.effect r l.shown :=
  l.withOneSpace.parse_spaced (show space ∈ [space] by decide) r

/-- A line is tolerated if a space stands in front of the value, or it would change nothing;
a value to be kept must not be empty and must not end early. -/
def Tolerable : Prop :=
  (space ∈ l.blanks ∨ l.name.Idle l.shown) ∧
    (l.name.destination.isSome → l.value ≠ [] ∧ lf ∉ l.value ∧ 0 ∉ l.value)

theorem kept_of_tolerated (h : l.Tolerated) (hkeep : l.name.destination.isSome) :
    space ∈ l.blanks ∧ l.value ≠ [] ∧ l.shown = l.value := by
  obtain ⟨d, hd⟩ := Option.isSome_iff_exists.mp hkeep
  -- a response that holds something else before the line
  obtain ⟨r, hr⟩ := HeaderName.exists_get hd (space :: l.value)
  have hkept := ((h r).2 d hd).1
  have hne : d.1 r ≠ l.value := by
    rw [hr]
    simp
  rw [parse_bytes] at hkept
  by_cases hsp : space ∈ l.blanks
  · rw [if_pos hsp, HeaderName.effect] at hkept
    by_cases hshown : l.shown = []
    · rw [if_pos hshown] at hkept
      exact absurd hkept hne
    · rw [if_neg hshown, HeaderName.get_set hd] at hkept
      exact ⟨hsp, hkept ▸ hshown, hkept⟩
  · rw [if_neg hsp] at hkept
    exact absurd hkept hne

theorem tolerated_iff : l.Tolerated ↔ l.Tolerable := by
  constructor
  · intro h
    refine ⟨or_iff_not_imp_left.mpr fun hsp => ?_, fun hkeep => ?_⟩
    · refine HeaderName.idle_of_effect (fun hkeep => absurd (l.kept_of_tolerated h hkeep).1 hsp) fun r => ?_
      have := (h r).1
      rw [parse_bytes, parse_withOneSpace, if_neg hsp] at this
      exact this.symm
    · obtain ⟨-, hne, hshown⟩ := l.kept_of_tolerated h hkeep
      exact ⟨hne, l.shown_eq_iff.mp hshown⟩
  · rintro ⟨hsame, hkept⟩ r
    have heffect : (httpParseHeaderField r l.bytes).2 = l.name.effect r l.shown := by
      rw [parse_bytes]
      split
      · rfl
      · rename_i hsp
        exact (HeaderName.effect_of_idle (hsame.resolve_left hsp) r).symm
    refine ⟨heffect.trans (l.parse_withOneSpace r).symm, fun d hd => ⟨?_, ?_⟩⟩
    · obtain ⟨hne, hwhole⟩ := hkept (Option.isSome_iff_exists.mpr ⟨d, hd⟩)
      rw [heffect, l.shown_eq_iff.mpr hwhole, HeaderName.effect, if_neg hne, HeaderName.get_set hd]
    · rw [HeaderName.destination_size hd]
      exact l.value_length.trans (by decide)

end HeaderLine

def tightLocation : HeaderLine :=
  ⟨.location, ascii "Location", [], ascii "/a", [], by decide, by simp, by simp, by decide +kernel, by decide⟩

/-- `Location:/a` is not taken for a location. -/
theorem tightLocation_not_tolerated : ¬ tightLocation.Tolerated := by
  intro h
  have := (h httpinfoNew.response).1
  revert this
  decide

end Ln882x.Http
