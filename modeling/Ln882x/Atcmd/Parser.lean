import Mathlib.Data.List.Nodup
import Mathlib.Data.List.TakeWhile
import Ln882x.Atcmd.Console

/-! Dispatch of AT commands, from `components/atcmd/at_parser.c` and
`at_string.c`. Commands are registered in a table under the hash of their name;
a line is cut at its first `?` or `=` and the handler is looked up by the hash
of the text in front. A table slot with hash 0 counts as free. -/

namespace Ln882x.Atcmd

open Nor

def atPlusCmdNum : ℕ := 80

def atMaxTempString : ℕ := 50

/-- `"AT+"`. -/
def atCommandMarker : Bytes := [0x41, 0x54, 0x2B]

def questionMark : UInt8 := 0x3F

def equalsSign : UInt8 := 0x3D

/-! ### Strings -/

/-- The length of a C string, as a 16-bit number. -/
def atStrlen (string : Bytes) : ℕ := string.length % 2 ^ 16

def atStrEqual (string1 : Bytes) (len1 : ℕ) (string2 : Bytes) (len2 : ℕ) : Bool :=
  (List.range len2).all fun i => string1.getD (len1 - len2 + i) 0 = string2.getD i 0

/-- The loop of `at_str_find`, with `n` positions left to try. -/
def atStrFindLoop (needle : Bytes) : ℕ → ℕ → Bytes → Option ℕ
  | 0, _, _ => none
  | n + 1, i, haystack =>
    if atStrEqual haystack (atStrlen needle) needle (atStrlen needle) then some i
    else atStrFindLoop needle n (i + 1) (haystack.drop 1)

/-- The position of a needle; the last position it could have is not tried. -/
def atStrFind (haystack needle : Bytes) : Option ℕ :=
  if atStrlen needle > atStrlen haystack then none
  else atStrFindLoop needle (atStrlen haystack - atStrlen needle) 0 haystack

/-- The bytes from `start` up to `stop`, exclusive, as a C string; `none` when the two zero bytes
behind them go past the end of the buffer `temp`. -/
def atArraySliceToString (array : Bytes) (start stop : ℕ) : Option Bytes :=
  if (stop - start) + 2 ≤ atMaxTempString then some ((array.take stop).drop start) else none

/-! ### The table -/

/-- The address of a handler. -/
abbrev AtCallback := ℕ

/-- The handlers of a command; a missing one is a null pointer. -/
structure Handlers where
  getter : Option AtCallback
  setter : Option AtCallback
  test : Option AtCallback
  execute : Option AtCallback
  deriving DecidableEq

structure AtCommand where
  hash : UInt32
  handlers : Handlers
  deriving DecidableEq

/-- A slot of the table before anything is registered. -/
def AtCommand.free : AtCommand := ⟨0, none, none, none, none⟩

def atHash (str : Bytes) : UInt32 := str.foldl (fun hash c => ((hash <<< 5) + hash) + c.toUInt32) 5381

/-- Into the first slot whose hash is 0. -/
def atRegisterSlot (cmd : AtCommand) : List AtCommand → List AtCommand
  | [] => []
  | slot :: table => if slot.hash = 0 then cmd :: table else slot :: atRegisterSlot cmd table

def atRegisterCommand (table : List AtCommand) (command : Bytes) (handlers : Handlers) : List AtCommand :=
  atRegisterSlot ⟨atHash command, handlers⟩ table

/-- `AT_PARSER_STATE_COMMAND`, `_TEST`, `_READ` and `_WRITE`. -/
inductive AtState where
  | command | test | read | write
  deriving DecidableEq

def Handlers.of (hs : Handlers) : AtState → Option AtCallback
  | .command => hs.execute
  | .test => hs.test
  | .read => hs.getter
  | .write => hs.setter

/-- The call made by `at_execute_command`: the handler and its argument. -/
def atExecuteCommand (table : List AtCommand) (command : Bytes) (value : Option Bytes) (type : AtState) :
    Option (AtCallback × Option Bytes) :=
  (table.find? (·.hash = atHash command)).bind fun slot =>
    (slot.handlers.of type).map fun callback => (callback, value)

/-! ### A line -/

/-- How the scan of a line for `?` and `=` ends; the positions are those of the mark found. -/
inductive Scan where
  | command
  | read (i : ℕ)
  | test (i : ℕ)
  | write (i : ℕ)
  | error
  deriving DecidableEq

def scanLine : ℕ → Bytes → Scan
  | _, [] => .command
  | i, c :: cs =>
    if c = questionMark then .read i
    else if c = equalsSign then
      match cs with
      | [] => .error
      | d :: _ => if d = questionMark then .test i else .write i
    else scanLine (i + 1) cs

/-- What a line makes the parser do: a write past its buffer, or at most one call of a handler.
The error texts and the return code, which no caller reads, are left out. -/
inductive Outcome where
  | overrun
  | done (call : Option (AtCallback × Option Bytes))
  deriving DecidableEq

def atParsePlusCmd (table : List AtCommand) (line : Bytes) : Outcome :=
  let lineLen := atStrlen line
  match atStrFind line atCommandMarker with
  | none => .done none
  | some start =>
    let start := start + atStrlen atCommandMarker
    let run (stop : ℕ) (value : Option Bytes) (state : AtState) : Outcome :=
      match atArraySliceToString line start stop with
      | none => .overrun
      | some temp => .done (atExecuteCommand table temp value state)
    match scanLine start ((line.take lineLen).drop start) with
    | .command => run lineLen none .command
    | .read i => run i none .read
    | .test i => run i none .test
    | .write i => run i (some (line.drop (i + 1))) .write
    | .error => .done none

/-! ### The call that is due -/

/-- The table after registering commands one by one. -/
def registered (cmds : List (Bytes × Handlers)) : List AtCommand :=
  cmds.foldl (fun table cmd => atRegisterCommand table cmd.1 cmd.2) (List.replicate atPlusCmdNum .free)

def isMark (c : UInt8) : Bool := c = questionMark ∨ c = equalsSign

/-- The text between `AT+` and the first `?` or `=`. -/
def nameOf (text : Bytes) : Bytes := text.takeWhile fun c => !isMark c

/-- The text from the first `?` or `=` on. -/
def marksOf (text : Bytes) : Bytes := text.dropWhile fun c => !isMark c

/-- The grammar: nothing, `?`, `=?` or `=VALUE` behind the name, with a non-empty value. -/
def request (text : Bytes) : Option (AtState × Option Bytes) :=
  match marksOf text with
  | [] => some (.command, none)
  | c :: v =>
    if c = questionMark then (if v = [] then some (.read, none) else none)
    else if v = [] then none
    else if v = [questionMark] then some (.test, none)
    else some (.write, some v)

/-- The handler to be called, with its argument. -/
def dueCall (cmds : List (Bytes × Handlers)) (text : Bytes) : Option (AtCallback × Option Bytes) :=
  (request text).bind fun r => (cmds.lookup (nameOf text)).bind fun hs =>
    (hs.of r.1).map fun callback => (callback, r.2)

/-- The line makes no stray write and causes exactly the call that is due. -/
def Dispatches (cmds : List (Bytes × Handlers)) (text : Bytes) : Prop :=
  atParsePlusCmd (registered cmds) (atCommandMarker ++ text) = .done (dueCall cmds text)

/-- The request the code makes of a line: it does not look behind `?` and `=?`. -/
def codeRequest (text : Bytes) : Option (AtState × Option Bytes) :=
  match marksOf text with
  | [] => some (.command, none)
  | c :: v =>
    if c = questionMark then some (.read, none)
    else match v with
      | [] => none
      | d :: _ => if d = questionMark then some (.test, none) else some (.write, some v)

/-- A command whose name has hash 0 is lost when the next one is registered. -/
def kept {α : Type} (hash : α → UInt32) : List α → List α
  | [] => []
  | [a] => [a]
  | a :: b :: l => if hash a = 0 then kept hash (b :: l) else a :: kept hash (b :: l)

/-- The first name left in the table with the hash of `name`. -/
def firstAlike (names : List Bytes) (name : Bytes) : Option Bytes :=
  (kept atHash names).find? fun m => atHash m = atHash name

/-! ### Scanning a line -/

theorem name_append_marks (text : Bytes) : nameOf text ++ marksOf text = text :=
  List.takeWhile_append_dropWhile

theorem marksOf_mark {c : UInt8} (h : isMark c = true) (cs : Bytes) :
    marksOf (c :: cs) = c :: cs ∧ nameOf (c :: cs) = [] := by
  simp [marksOf, nameOf, h]

theorem scanLine_cons (i : ℕ) (c : UInt8) (cs : Bytes) :
    scanLine i (c :: cs) = if c = questionMark then .read i
      else if c = equalsSign then
        match cs with
        | [] => .error
        | d :: _ => if d = questionMark then .test i else .write i
      else scanLine (i + 1) cs := by
  cases cs <;> rfl

theorem scanLine_eq (text : Bytes) (i : ℕ) :
    scanLine i text = match marksOf text with
      | [] => .command
      | c :: v =>
        if c = questionMark then .read (i + (nameOf text).length)
        else match v with
          | [] => .error
          | d :: _ => if d = questionMark then .test (i + (nameOf text).length)
            else .write (i + (nameOf text).length) := by
  induction text generalizing i with
  | nil => rfl
  | cons c cs ih =>
    by_cases hq : c = questionMark
    · obtain ⟨h1, h2⟩ := marksOf_mark (show isMark c = true by simp [isMark, hq]) cs
      rw [h1, h2, scanLine_cons]
      simp only [if_pos hq, List.length_nil, Nat.add_zero]
    · by_cases he : c = equalsSign
      · obtain ⟨h1, h2⟩ := marksOf_mark (show isMark c = true by simp [isMark, he]) cs
        rw [h1, h2, scanLine_cons, if_neg hq, if_pos he]
        simp only [if_neg hq, List.length_nil, Nat.add_zero]
        cases cs <;> rfl
      · have hm : isMark c = false := by simp [isMark, hq, he]
        have h1 : marksOf (c :: cs) = marksOf cs := by simp [marksOf, hm]
        have h2 : (nameOf (c :: cs)).length = (nameOf cs).length + 1 := by simp [nameOf, hm]
        have h3 : i + ((nameOf cs).length + 1) = i + 1 + (nameOf cs).length := by omega
        rw [h1, h2, h3, ← ih, scanLine_cons, if_neg hq, if_neg he]

theorem atStrFind_marker {text : Bytes} (hl : (atCommandMarker ++ text).length < 2 ^ 16) :
    atStrFind (atCommandMarker ++ text) atCommandMarker = if text = [] then none else some 0 := by
  have h3 : atStrlen atCommandMarker = 3 := rfl
  have hlen : atStrlen (atCommandMarker ++ text) = 3 + text.length := by
    rw [atStrlen, Nat.mod_eq_of_lt hl, List.length_append]
    rfl
  rw [atStrFind, h3, hlen, if_neg (by omega), Nat.add_sub_cancel_left]
  cases text with
  | nil => rfl
  | cons c cs => rfl

/-- The parser on a line: the line with nothing behind `AT+` is not recognised, a name of more
than 48 bytes does not fit `temp`, and any other is looked up for the request made. -/
theorem atParsePlusCmd_eq (table : List AtCommand) {text : Bytes}
    (hl : (atCommandMarker ++ text).length < 2 ^ 16) :
    atParsePlusCmd table (atCommandMarker ++ text) =
      if text = [] then .done none
      else match codeRequest text with
        | none => .done none
        | some (state, value) => if (nameOf text).length ≤ 48
            then .done (atExecuteCommand table (nameOf text) value state) else .overrun := by
  have h3 : atStrlen atCommandMarker = 3 := rfl
  have hm3 : atCommandMarker.length = 3 := rfl
  have hlen : atStrlen (atCommandMarker ++ text) = (atCommandMarker ++ text).length := Nat.mod_eq_of_lt hl
  have hsplit := name_append_marks text
  have hlt := congrArg List.length hsplit
  rw [List.length_append] at hlt
  have hslice : atArraySliceToString (atCommandMarker ++ text) 3 (3 + (nameOf text).length) =
      if (nameOf text).length ≤ 48 then some (nameOf text) else none := by
    have ht : text.take (nameOf text).length = nameOf text := by
      have h := @List.take_left UInt8 (nameOf text) (marksOf text)
      rwa [hsplit] at h
    have hn : ((atCommandMarker ++ text).take (3 + (nameOf text).length)).drop 3 = nameOf text := by
      rw [← hm3, List.take_length_add_append, List.drop_left' rfl, ht]
    rw [atArraySliceToString, hn, Nat.add_sub_cancel_left]
    exact if_congr (by simp only [atMaxTempString]; omega) rfl rfl
  rw [atParsePlusCmd, atStrFind_marker hl]
  by_cases ht : text = []
  · rw [if_pos ht, if_pos ht]
  · rw [if_neg ht, if_neg ht, hlen, List.take_length]
    simp only [Nat.zero_add, h3]
    rw [← hm3, List.drop_left' rfl, hm3, scanLine_eq, codeRequest]
    cases hm : marksOf text with
    | nil =>
      have hstop : (atCommandMarker ++ text).length = 3 + (nameOf text).length := by
        rw [List.length_append, hm3, ← hlt, hm, List.length_nil, Nat.add_zero]
      simp only [hstop, hslice]
      split_ifs <;> rfl
    | cons c v =>
      by_cases hq : c = questionMark
      · simp only [if_pos hq, hslice]
        split_ifs <;> rfl
      · cases v with
        | nil => simp only [if_neg hq]
        | cons d v =>
          by_cases hd : d = questionMark
          · simp only [if_neg hq, if_pos hd, hslice]
            split_ifs <;> rfl
          · have hv : (atCommandMarker ++ text).drop (3 + (nameOf text).length + 1) = d :: v := by
              have htext : atCommandMarker ++ text = (atCommandMarker ++ nameOf text ++ [c]) ++ d :: v := by
                have h : nameOf text ++ c :: d :: v = text := by rw [← hm, hsplit]
                simp only [List.append_assoc, List.singleton_append, h]
              rw [htext, List.drop_left' (by simp [hm3]; omega)]
            simp only [if_neg hq, if_neg hd, hslice, hv]
            split_ifs <;> rfl

/-! ### The registered table -/

def slotOf (cmd : Bytes × Handlers) : AtCommand := ⟨atHash cmd.1, cmd.2⟩

def nameHash (cmd : Bytes × Handlers) : UInt32 := atHash cmd.1

theorem atRegisterSlot_append (cmd : AtCommand) {table : List AtCommand} (h : ∀ s ∈ table, s.hash ≠ 0)
    (slot : AtCommand) (hs : slot.hash = 0) (rest : List AtCommand) :
    atRegisterSlot cmd (table ++ slot :: rest) = table ++ cmd :: rest := by
  induction table with
  | nil => rw [List.nil_append, atRegisterSlot, if_pos hs, List.nil_append]
  | cons s table ih =>
    rw [List.cons_append, atRegisterSlot, if_neg (h s List.mem_cons_self), ih fun t ht => h t (List.mem_cons_of_mem s ht),
      List.cons_append]

theorem kept_cons {α : Type} (hash : α → UInt32) (a b : α) (l : List α) :
    kept hash (a :: b :: l) = if hash a = 0 then kept hash (b :: l) else a :: kept hash (b :: l) := rfl

theorem kept_sublist {α : Type} (hash : α → UInt32) (l : List α) : (kept hash l).Sublist l := by
  induction l using kept.induct hash with
  | case1 => exact .slnil
  | case2 a => exact List.Sublist.refl _
  | case3 a b l h ih =>
    rw [kept, if_pos h]
    exact ih.trans (List.sublist_cons_self _ _)
  | case4 a b l h ih =>
    rw [kept, if_neg h]
    exact ih.cons_cons a

theorem kept_map {α β : Type} (hash : β → UInt32) (f : α → β) (l : List α) :
    (kept (fun a => hash (f a)) l).map f = kept hash (l.map f) := by
  induction l using kept.induct (fun a => hash (f a)) with
  | case1 => rfl
  | case2 a => rfl
  | case3 a b l h ih =>
    rw [kept_cons, if_pos h, ih]
    simp only [List.map_cons]
    rw [kept_cons, if_pos h]
  | case4 a b l h ih =>
    rw [kept_cons, if_neg h, List.map_cons, ih]
    simp only [List.map_cons]
    rw [kept_cons, if_neg h]

/-- Registering into a table with enough free slots behind the used ones. -/
theorem register_all (cmds : List (Bytes × Handlers)) : ∀ {table : List AtCommand} {m : ℕ},
    (∀ s ∈ table, s.hash ≠ 0) → cmds.length ≤ m →
    cmds.foldl (fun table cmd => atRegisterCommand table cmd.1 cmd.2) (table ++ List.replicate m .free) =
      table ++ (kept nameHash cmds).map slotOf ++ List.replicate (m - (kept nameHash cmds).length) .free := by
  have hreg : ∀ (a : Bytes × Handlers) {table : List AtCommand} {m : ℕ}, (∀ s ∈ table, s.hash ≠ 0) →
      atRegisterCommand (table ++ List.replicate (m + 1) .free) a.1 a.2 =
        table ++ slotOf a :: List.replicate m .free := by
    intro a table m h
    rw [atRegisterCommand, List.replicate_succ, atRegisterSlot_append _ h _ rfl]
    rfl
  induction cmds using kept.induct nameHash with
  | case1 =>
    intro table m _ _
    simp [kept]
  | case2 a =>
    intro table m h hm
    obtain ⟨m, rfl⟩ : ∃ k, m = k + 1 := ⟨m - 1, by simp at hm; omega⟩
    rw [List.foldl_cons, List.foldl_nil, hreg a h]
    simp [kept]
  | case3 a b l ha ih =>
    intro table m h hm
    obtain ⟨m, rfl⟩ : ∃ k, m = k + 1 := ⟨m - 1, by simp at hm; omega⟩
    -- the slot of `a` counts as free, so `b` takes it
    have hb : atRegisterCommand (table ++ slotOf a :: List.replicate m .free) b.1 b.2 =
        atRegisterCommand (table ++ List.replicate (m + 1) .free) b.1 b.2 := by
      rw [hreg b h, atRegisterCommand, atRegisterSlot_append _ h _ ha]
      rfl
    rw [kept, if_pos ha, ← ih h (by simp at hm ⊢; omega), List.foldl_cons, hreg a h, List.foldl_cons, hb,
      List.foldl_cons]
  | case4 a b l ha ih =>
    intro table m h hm
    obtain ⟨m, rfl⟩ : ∃ k, m = k + 1 := ⟨m - 1, by simp at hm; omega⟩
    have hta : ∀ s ∈ table ++ [slotOf a], s.hash ≠ 0 := by
      intro s hs
      rcases List.mem_append.mp hs with hs | hs
      · exact h s hs
      · rw [List.mem_singleton.mp hs]
        exact ha
    have hi := ih hta (show (b :: l).length ≤ m by simp at hm ⊢; omega)
    rw [kept, if_neg ha, List.foldl_cons, hreg a h, List.map_cons, List.length_cons, Nat.add_sub_add_right]
    simpa using hi

theorem registered_eq {cmds : List (Bytes × Handlers)} (h : cmds.length ≤ atPlusCmdNum) :
    registered cmds = (kept nameHash cmds).map slotOf ++
      List.replicate (atPlusCmdNum - (kept nameHash cmds).length) .free := by
  have hr := @register_all cmds [] atPlusCmdNum (by simp) h
  simpa [registered] using hr

/-- A lookup finds the first command left with that hash; a free slot has no handler. -/
theorem atExecuteCommand_registered {cmds : List (Bytes × Handlers)} (h : cmds.length ≤ atPlusCmdNum) (name : Bytes)
    (value : Option Bytes) (state : AtState) :
    atExecuteCommand (registered cmds) name value state =
      ((kept nameHash cmds).find? fun cmd => atHash cmd.1 = atHash name).bind fun cmd =>
        (cmd.2.of state).map fun callback => (callback, value) := by
  have hfind : (((kept nameHash cmds).map slotOf).find? fun s => s.hash = atHash name) =
      ((kept nameHash cmds).find? fun cmd => atHash cmd.1 = atHash name).map slotOf := by
    rw [List.find?_map]
    rfl
  rw [atExecuteCommand, registered_eq h, List.find?_append, hfind]
  cases hk : (kept nameHash cmds).find? fun cmd => atHash cmd.1 = atHash name with
  | some cmd => rfl
  | none =>
    simp only [Option.map_none, Option.none_or, Option.bind_none, Option.bind_eq_none_iff]
    intro slot hs
    have hm := List.mem_of_find?_eq_some hs
    rw [List.eq_of_mem_replicate hm]
    cases state <;> rfl

/-! ### Which lines are dispatched right -/

/-- When the lines `AT+` followed by `text` are dispatched right, whatever handlers the names
have. -/
def Right (names : List Bytes) (text : Bytes) : Prop :=
  if text = [] then [] ∉ names
  else if codeRequest text = none then True
  else (nameOf text).length ≤ 48 ∧
    if codeRequest text = request text then
      firstAlike names (nameOf text) = if nameOf text ∈ names then some (nameOf text) else none
    else firstAlike names (nameOf text) = none ∧ (request text = none ∨ nameOf text ∉ names)

section
variable {cmds : List (Bytes × Handlers)} {names : List Bytes} {text : Bytes}

theorem firstAlike_map (cmds : List (Bytes × Handlers)) (name : Bytes) :
    ((kept nameHash cmds).find? fun cmd => atHash cmd.1 = atHash name).map Prod.fst =
      firstAlike (cmds.map Prod.fst) name := by
  rw [firstAlike, ← kept_map atHash Prod.fst, List.find?_map]
  rfl

theorem lookup_eq_none {name : Bytes} (h : name ∉ cmds.map Prod.fst) : cmds.lookup name = none := by
  rw [List.lookup_eq_none_iff]
  intro p hp
  have hne : name ≠ p.1 := fun he => h (he ▸ List.mem_map_of_mem hp)
  simpa using hne

theorem lookup_of_mem (hn : (cmds.map Prod.fst).Nodup) {cmd : Bytes × Handlers} (h : cmd ∈ cmds) :
    cmds.lookup cmd.1 = some cmd.2 := by
  obtain ⟨pre, post, rfl⟩ := List.append_of_mem h
  rw [List.lookup_eq_some_iff]
  refine ⟨pre, post, rfl, fun p hp => ?_⟩
  have hne : cmd.1 ≠ p.1 := by
    rw [List.map_append, List.map_cons] at hn
    exact fun he => List.disjoint_of_nodup_append hn (List.mem_map_of_mem hp) (by simp [he])
  simpa using hne

/-- The condition is enough. -/
theorem Right.dispatches (hr : Right (cmds.map Prod.fst) text) (hn : (cmds.map Prod.fst).Nodup)
    (hc : cmds.length ≤ atPlusCmdNum) (hl : (atCommandMarker ++ text).length < 2 ^ 16) :
    Dispatches cmds text := by
  rw [Dispatches, atParsePlusCmd_eq _ hl, dueCall]
  rw [Right] at hr
  by_cases ht : text = []
  · subst ht
    rw [if_pos rfl] at hr
    rw [if_pos rfl, show nameOf [] = [] from rfl, lookup_eq_none hr]
    simp
  · rw [if_neg ht] at hr ⊢
    have hsub := kept_sublist nameHash cmds
    have hfirst := firstAlike_map cmds (nameOf text)
    cases hq : codeRequest text with
    | none =>
      have hreq : request text = none := by
        rw [codeRequest] at hq
        rw [request]
        cases hm : marksOf text with
        | nil => simp [hm] at hq
        | cons c v =>
          rw [hm] at hq
          by_cases hc : c = questionMark
          · simp [hc] at hq
          · cases v with
            | nil => simp [hc]
            | cons d v => by_cases hd : d = questionMark <;> simp [hc, hd] at hq
      simp [hreq]
    | some q =>
      obtain ⟨state, value⟩ := q
      rw [hq, if_neg (by simp)] at hr
      obtain ⟨h48, hr⟩ := hr
      simp only [if_pos h48, atExecuteCommand_registered hc, Outcome.done.injEq]
      by_cases hsame : some (state, value) = request text
      · rw [if_pos hsame] at hr
        rw [← hsame, Option.bind_some]
        by_cases hmem : nameOf text ∈ cmds.map Prod.fst
        · rw [hr, if_pos hmem, Option.map_eq_some_iff] at hfirst
          obtain ⟨cmd, hcmd, hname⟩ := hfirst
          have hlook := lookup_of_mem hn (hsub.subset (List.mem_of_find?_eq_some hcmd))
          rw [hname] at hlook
          rw [hcmd, hlook, Option.bind_some, Option.bind_some]
        · rw [hr, if_neg hmem, Option.map_eq_none_iff] at hfirst
          rw [hfirst, lookup_eq_none hmem, Option.bind_none, Option.bind_none]
      · rw [if_neg hsame] at hr
        rw [hr.1, Option.map_eq_none_iff] at hfirst
        rw [hfirst, Option.bind_none]
        rcases hr.2 with hreq | hmem
        · rw [hreq, Option.bind_none]
        · rw [lookup_eq_none hmem]
          simp

/-- Commands with handlers that tell which command and nothing else. -/
def numbered (names : List Bytes) : List (Bytes × Handlers) :=
  names.zipIdx.map fun p => (p.1, ⟨some p.2, some p.2, some p.2, some p.2⟩)

theorem map_fst_numbered (names : List Bytes) : (numbered names).map Prod.fst = names := by
  simp [numbered, List.map_map, Function.comp_def]

theorem of_numbered {cmd : Bytes × Handlers} (h : cmd ∈ numbered names) (state : AtState) :
    ∃ i, cmd.2.of state = some i ∧ names[i]? = some cmd.1 := by
  obtain ⟨⟨m, i⟩, hp, rfl⟩ := List.mem_map.mp h
  exact ⟨i, by cases state <;> rfl, List.mem_zipIdx_iff_getElem?.mp hp⟩

theorem lookup_numbered (hn : names.Nodup) {name : Bytes} (h : name ∈ names) (state : AtState) :
    ∃ hs i, (numbered names).lookup name = some hs ∧ hs.of state = some i ∧ names[i]? = some name := by
  rw [← map_fst_numbered names] at hn h
  obtain ⟨cmd, hcmd, rfl⟩ := List.mem_map.mp h
  obtain ⟨i, hi, hget⟩ := of_numbered hcmd state
  exact ⟨cmd.2, i, lookup_of_mem hn hcmd, hi, hget⟩

/-- Where the code reads a line as another request than the grammar has it, the arguments
differ. -/
theorem codeRequest_ne {q r : AtState × Option Bytes} (hq : codeRequest text = some q) (hr : request text = some r)
    (hne : q ≠ r) : q.2 ≠ r.2 := by
  rw [codeRequest] at hq
  rw [request] at hr
  cases hm : marksOf text with
  | nil =>
    rw [hm] at hq hr
    exact absurd ((Option.some.inj hq).symm.trans (Option.some.inj hr)) hne
  | cons c v =>
    rw [hm] at hq hr
    by_cases hc : c = questionMark
    · simp only [if_pos hc] at hq hr
      split_ifs at hr with hv
      exact absurd ((Option.some.inj hq).symm.trans (Option.some.inj hr)) hne
    · simp only [if_neg hc] at hq hr
      cases v with
      | nil => simp at hq
      | cons d v =>
        simp only [reduceCtorEq, if_false] at hq hr
        by_cases hd : d = questionMark
        · rw [if_pos hd] at hq
          split_ifs at hr with hv
          · exact absurd ((Option.some.inj hq).symm.trans (Option.some.inj hr)) hne
          · rw [← Option.some.inj hq, ← Option.some.inj hr]
            simp
        · have hv : ¬ d :: v = [questionMark] := fun hv => hd (List.cons.inj hv).1
          rw [if_neg hd] at hq
          rw [if_neg hv] at hr
          exact absurd ((Option.some.inj hq).symm.trans (Option.some.inj hr)) hne

/-- The condition is needed: handlers that tell which command is called show the difference. -/
theorem Dispatches.right (h : Dispatches (numbered names) text) (hn : names.Nodup)
    (hc : names.length ≤ atPlusCmdNum) (hl : (atCommandMarker ++ text).length < 2 ^ 16) : Right names text := by
  have hc' : (numbered names).length ≤ atPlusCmdNum := by
    rw [← List.length_map Prod.fst, map_fst_numbered]
    exact hc
  rw [Dispatches, atParsePlusCmd_eq _ hl, dueCall] at h
  rw [Right]
  by_cases ht : text = []
  · subst ht
    rw [if_pos rfl, Outcome.done.injEq] at h
    rw [if_pos rfl]
    intro hmem
    obtain ⟨hs, i, hlook, hi, -⟩ := lookup_numbered hn hmem .command
    rw [show nameOf [] = [] from rfl, hlook, show request [] = some (.command, none) from rfl] at h
    simp [hi] at h
  · rw [if_neg ht] at h ⊢
    cases hq : codeRequest text with
    | none => simp
    | some q =>
      obtain ⟨state, value⟩ := q
      rw [hq] at h
      rw [if_neg (by simp)]
      by_cases h48 : (nameOf text).length ≤ 48
      · simp only [if_pos h48, atExecuteCommand_registered hc', Outcome.done.injEq] at h
        refine ⟨h48, ?_⟩
        have hfirst := firstAlike_map (numbered names) (nameOf text)
        rw [map_fst_numbered] at hfirst
        rw [← hfirst]
        cases hf : (kept nameHash (numbered names)).find? fun cmd => atHash cmd.1 = atHash (nameOf text) with
        | none =>
          rw [hf, Option.bind_none] at h
          have hno : request text ≠ none → nameOf text ∉ names := by
            intro hr hmem
            obtain ⟨r, hr⟩ := Option.ne_none_iff_exists'.mp hr
            obtain ⟨hs, i, hlook, hi, -⟩ := lookup_numbered hn hmem r.1
            rw [hr, hlook] at h
            simp [hi] at h
          by_cases hsame : some (state, value) = request text
          · rw [if_pos hsame, if_neg (hno (by simp [← hsame]))]
            rfl
          · rw [if_neg hsame]
            refine ⟨rfl, ?_⟩
            by_cases hr : request text = none
            · exact .inl hr
            · exact .inr (hno hr)
        | some cmd =>
          have hmem := (kept_sublist nameHash (numbered names)).subset (List.mem_of_find?_eq_some hf)
          obtain ⟨i, hi, hget⟩ := of_numbered hmem state
          rw [hf, Option.bind_some, hi, Option.map_some] at h
          -- a call is made, so one is due, and with the same argument
          obtain ⟨r, hr, h'⟩ := Option.bind_eq_some_iff.mp h.symm
          obtain ⟨hs, hlook, h''⟩ := Option.bind_eq_some_iff.mp h'
          obtain ⟨k, hk, hkv⟩ := Option.map_eq_some_iff.mp h''
          obtain ⟨rfl, hval⟩ := Prod.mk.inj hkv
          have hsame : some (state, value) = request text := by
            by_contra hne
            refine codeRequest_ne hq hr (fun he => hne ?_) hval.symm
            rw [hr, he]
          have hlm : nameOf text ∈ names := by
            by_contra hno
            rw [← map_fst_numbered names] at hno
            rw [lookup_eq_none hno] at hlook
            simp at hlook
          obtain ⟨hs', k', hlook', hk', hget'⟩ := lookup_numbered hn hlm r.1
          rw [hlook] at hlook'
          obtain rfl := Option.some.inj hlook'
          rw [hk] at hk'
          obtain rfl := Option.some.inj hk'
          rw [if_pos hsame, if_pos hlm, Option.map_some, ← hget, hget']
      · simp only [if_neg h48, reduceCtorEq] at h

/-- A line is dispatched right for all handlers of the registered names exactly under the
condition. -/
theorem dispatches_iff {names : List Bytes} (hn : names.Nodup) (hc : names.length ≤ atPlusCmdNum) {text : Bytes}
    (hl : (atCommandMarker ++ text).length < 2 ^ 16) :
    (∀ cmds : List (Bytes × Handlers), cmds.map Prod.fst = names → Dispatches cmds text) ↔
      Right names text := by
  constructor
  · intro h
    exact (h (numbered names) (map_fst_numbered names)).right hn hc hl
  · rintro hr cmds rfl
    exact hr.dispatches hn (by simpa using hc) hl

/-- `AT+RST` with `RST` as the only registered name. -/
theorem dispatches_iff_rst :
    (∀ cmds : List (Bytes × Handlers), cmds.map Prod.fst = [[0x52, 0x53, 0x54]] → Dispatches cmds [0x52, 0x53, 0x54]) ↔
      Right [[0x52, 0x53, 0x54]] [0x52, 0x53, 0x54] :=
  dispatches_iff (by decide) (by decide) (by decide)

/-- `AT+RRu` has the hash of `RST` and runs its handler; `AT+RST=?1` is a write of `?1` that runs the
test handler. -/
theorem not_dispatches_alike :
    ¬ Dispatches [([0x52, 0x53, 0x54], ⟨none, none, none, some 1⟩)] [0x52, 0x52, 0x75] ∧
      ¬ Dispatches [([0x52, 0x53, 0x54], ⟨none, some 2, some 3, none⟩)] [0x52, 0x53, 0x54, 0x3D, 0x3F, 0x31] := by
  unfold Dispatches
  decide +kernel

end

end Ln882x.Atcmd
