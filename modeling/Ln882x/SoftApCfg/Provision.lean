import Ln882x.Text.Search
import Mathlib.Data.List.TakeWhile

/-! The provisioning message of `components/smartlink/softapcfg`. A phone sends the
name and the password of the network in a fixed JSON template; `recv_proc` does not
tokenise it but searches for each key, the colon behind it and the quotes around its
value, and stores what it finds as it goes. A position in the receive buffer is the
rest of its text. The text is shorter than 255 bytes where it is searched, so the
`int16_t` of the source holds every length. -/

namespace Ln882x.SoftApCfg

abbrev Bytes := List UInt8

/-! ### The source -/

def wlanSsidMaxLen : ℕ := 32

def wlanPwdMaxLen : ℕ := 64

def tokenMaxLen : ℕ := 48

def recvJsonDataLenMin : ℕ := 74

def recvJsonDataLenMax : ℕ := 255

/-- `target_ssid`, `target_pwd`, `apcfg_token` and `aes_flag`. -/
structure Target where
  ssid : Bytes
  pwd : Bytes
  token : Bytes
  aesFlag : Bool
  deriving DecidableEq

/-- `recv_proc` returns, or it goes on from the null pointer of a search that failed. -/
inductive Outcome where
  | ret (ok : Bool)
  | stray
  deriving DecidableEq

def ascii (s : String) : Bytes := s.toList.map fun c => UInt8.ofNat c.toNat

def quote : UInt8 := 34

def colon : UInt8 := 58

/-- The text of a buffer, up to its first zero. -/
def cString (buf : Bytes) : Bytes := buf.takeWhile (· ≠ 0)

def strstr (pos : Bytes) (needle : Bytes) : Option Bytes := Text.find needle pos

def strchr (pos : Bytes) (c : UInt8) : Option Bytes := Text.findSymbol c pos

/-- `strcspn`, for one byte to reject. -/
def strcspn (pos : Bytes) (c : UInt8) : ℕ := (Text.before c pos).length

/-- `memset` to zero and `memcpy` to the start, of an array of `size` bytes. -/
def stored (size : ℕ) (value : Bytes) : Bytes := value ++ List.replicate (size - value.length) 0

/-- The value of a key and the position of the quote behind it; `none` is the way to `error_end`. -/
def field (key : Bytes) (lenOk : ℕ → Bool) (pos : Bytes) : Option (Bytes × Bytes) := do
  let pos ← strstr pos key
  let pos ← strchr pos colon
  let pos ← strchr (pos.drop 1) quote
  let pos := pos.drop 1
  let len := strcspn pos quote
  if lenOk len then some (pos.take len, pos.drop len) else none

def ssidKey : Bytes := ascii "\"ssid\""

def passwordKey : Bytes := ascii "\"password\""

def tokenKey : Bytes := ascii "\"token\""

def aesKey : Bytes := ascii "\"aes\""

def ssidField (pos : Bytes) : Option (Bytes × Bytes) := field ssidKey (fun len => 1 ≤ len ∧ len ≤ wlanSsidMaxLen) pos

/-- An empty password is taken. -/
def passwordField (pos : Bytes) : Option (Bytes × Bytes) := field passwordKey (fun len => len < wlanPwdMaxLen) pos

def tokenField (pos : Bytes) : Option (Bytes × Bytes) := field tokenKey (fun len => 1 ≤ len ∧ len ≤ tokenMaxLen) pos

/-- The last field: without its key the flag is cleared, and where the colon or the quote is
missing the flag is cleared as well but the search goes on. -/
def aesField (pos : Bytes) : Bool × Outcome :=
  match strstr pos aesKey with
  | none => (false, .ret true)
  | some pos =>
    match strchr pos colon with
    | none => (false, .stray)
    | some pos =>
      match strchr (pos.drop 1) quote with
      | none => (false, .stray)
      | some pos => ((pos.drop 1).head? = some 49, .ret true)

/-- `recv_proc` on the bytes received; the buffer behind them is zero. -/
def recvProc (st : Target) (buf : Bytes) : Target × Outcome :=
  if buf.length > recvJsonDataLenMin ∧ buf.length < recvJsonDataLenMax then
    match ssidField (cString buf) with
    | none => (st, .ret false)
    | some (ssid, pos) =>
      let st := { st with ssid := stored (wlanSsidMaxLen + 1) ssid }
      match passwordField pos with
      | none => (st, .ret false)
      | some (pwd, pos) =>
        let st := { st with pwd := stored wlanPwdMaxLen pwd }
        match tokenField pos with
        | none => (st, .ret false)
        | some (token, pos) =>
          let st := { st with token := stored (tokenMaxLen + 1) token }
          let aes := aesField pos
          ({ st with aesFlag := aes.1 }, aes.2)
  else (st, .ret false)

/-! ### The template -/

/-- A message in the template; `aes` is the digit. -/
def message (ssid pwd token : Bytes) (aes : UInt8) : Bytes :=
  ascii "\x7b\"cmdType\":1,\"ssid\":\"" ++ (ssid ++ quote :: (ascii ",\"password\":\"" ++ (pwd ++ quote ::
    (ascii ",\"token\":\"" ++ (token ++ quote :: (ascii ",\"aes\":\"" ++ aes :: ascii "\"\x7d"))))))

/-- A value of a field: no zero and no quote. -/
def Plain (value : Bytes) : Prop := ∀ b ∈ value, b ≠ 0 ∧ b ≠ quote

instance (value : Bytes) : Decidable (Plain value) := inferInstanceAs (Decidable (∀ b ∈ value, b ≠ 0 ∧ b ≠ quote))

variable {value ssid pwd token pos : Bytes}

theorem Plain.not_quote (h : Plain value) : quote ∉ value := fun hmem => (h quote hmem).2 rfl

/-! ### Fields -/

/-- A key, its colon and its quoted value are read back, whatever the value holds. -/
theorem field_quoted {key : Bytes} (hkey : colon ∉ key) {pre : Bytes}
    (hpos : strstr pos key = some (key ++ (colon :: quote :: (value ++ quote :: pre)))) (hvalue : Plain value)
    {lenOk : ℕ → Bool} (hlen : lenOk value.length = true) : field key lenOk pos = some (value, quote :: pre) := by
  have hcolon : strchr (key ++ (colon :: quote :: (value ++ quote :: pre))) colon =
      some (colon :: quote :: (value ++ quote :: pre)) := Text.findSymbol_append hkey _
  have hquote : strchr (quote :: (value ++ quote :: pre)) quote = some (quote :: (value ++ quote :: pre)) :=
    Text.findSymbol_append (List.not_mem_nil : quote ∉ []) _
  have hspan : strcspn (value ++ quote :: pre) quote = value.length := by
    rw [strcspn, Text.before_append hvalue.not_quote]
  unfold field
  rw [hpos, Option.bind_eq_bind, Option.bind_some, hcolon, Option.bind_some, List.drop_succ_cons,
    List.drop_zero, hquote, Option.bind_some]
  dsimp only
  rw [List.drop_succ_cons, List.drop_zero, hspan, if_pos hlen, List.take_left, List.drop_left]

/-! ### Keys -/

/-- No part of the head of a message, nor of what stands between two of its values, is taken
for the next key. -/
theorem strstr_ssidKey (rest : Bytes) : strstr (ascii "\x7b\"cmdType\":1,\"ssid\":\"" ++ rest) ssidKey =
    some (ssidKey ++ colon :: quote :: rest) := rfl

theorem strstr_passwordKey (rest : Bytes) : strstr (quote :: (ascii ",\"password\":\"" ++ rest)) passwordKey =
    some (passwordKey ++ colon :: quote :: rest) := rfl

theorem strstr_tokenKey (rest : Bytes) : strstr (quote :: (ascii ",\"token\":\"" ++ rest)) tokenKey =
    some (tokenKey ++ colon :: quote :: rest) := rfl

/-! ### Messages -/

theorem ssidField_message (hlen : 1 ≤ ssid.length ∧ ssid.length ≤ wlanSsidMaxLen) (h : Plain ssid) (rest : Bytes) :
    ssidField (ascii "\x7b\"cmdType\":1,\"ssid\":\"" ++ (ssid ++ quote :: rest)) = some (ssid, quote :: rest) :=
  field_quoted (by decide) (strstr_ssidKey _) h (decide_eq_true hlen)

theorem passwordField_message (hlen : pwd.length < wlanPwdMaxLen) (h : Plain pwd) (rest : Bytes) :
    passwordField (quote :: (ascii ",\"password\":\"" ++ (pwd ++ quote :: rest))) = some (pwd, quote :: rest) :=
  field_quoted (by decide) (strstr_passwordKey _) h (decide_eq_true hlen)

theorem tokenField_message (hlen : 1 ≤ token.length ∧ token.length ≤ tokenMaxLen) (h : Plain token) (rest : Bytes) :
    tokenField (quote :: (ascii ",\"token\":\"" ++ (token ++ quote :: rest))) = some (token, quote :: rest) :=
  field_quoted (by decide) (strstr_tokenKey _) h (decide_eq_true hlen)

theorem cString_message (hs : Plain ssid) (hp : Plain pwd) (ht : Plain token) {aes : UInt8} (ha : aes ≠ 0) :
    cString (message ssid pwd token aes) = message ssid pwd token aes := by
  have hplain {v : Bytes} (h : Plain v) : ∀ b ∈ v, b ≠ 0 := fun b hb => (h b hb).1
  have hall : ∀ b ∈ message ssid pwd token aes, b ≠ 0 := by
    unfold message
    simp only [List.forall_mem_append, List.forall_mem_cons]
    refine ⟨by decide +kernel, hplain hs, by decide, by decide +kernel, hplain hp, by decide, by decide +kernel, hplain ht,
      by decide, by decide +kernel, ha, by decide +kernel⟩
  rw [cString, List.takeWhile_eq_self_iff]
  intro b hb
  exact decide_eq_true (hall b hb)

theorem aesField_digit (aes : Bool) (rest : Bytes) :
    aesField (quote :: (ascii ",\"aes\":\"" ++ (if aes then 49 else 48) :: rest)) = (aes, .ret true) := by
  cases aes with
  | true => rfl
  | false => rfl

/-- A message in the template is taken, and its four fields are stored. -/
theorem recvProc_message (st : Target) {ssid pwd token : Bytes} (aes : Bool)
    (hssid : 1 ≤ ssid.length ∧ ssid.length ≤ wlanSsidMaxLen) (hpwd : pwd.length ≤ wlanPwdMaxLen - 1)
    (htoken : 1 ≤ token.length ∧ token.length ≤ tokenMaxLen) (hs : Plain ssid) (hp : Plain pwd) (ht : Plain token)
    (hmin : recvJsonDataLenMin < (message ssid pwd token (if aes then 49 else 48)).length)
    (hmax : (message ssid pwd token (if aes then 49 else 48)).length < recvJsonDataLenMax) :
    recvProc st (message ssid pwd token (if aes then 49 else 48)) =
      (⟨stored (wlanSsidMaxLen + 1) ssid, stored wlanPwdMaxLen pwd, stored (tokenMaxLen + 1) token, aes⟩, .ret true) := by
  have haes : (if aes then 49 else 48 : UInt8) ≠ 0 := by
    cases aes with
    | true => decide
    | false => decide
  have hshort : pwd.length < wlanPwdMaxLen := by
    rw [wlanPwdMaxLen] at hpwd ⊢
    omega
  rw [recvProc, if_pos ⟨hmin, hmax⟩, cString_message hs hp ht haes, message, ssidField_message hssid hs]
  dsimp only
  rw [passwordField_message hshort hp]
  dsimp only
  rw [tokenField_message htoken ht]
  dsimp only
  rw [aesField_digit]

/-- A name and a token that spell keys and delimiters. -/
theorem recvProc_message_keys :
    recvProc ⟨[], [], [], false⟩ (message (ascii "ssid:\x7bpassword\x7d") (ascii "") (ascii "aes:1,token") 49) =
      (⟨stored 33 (ascii "ssid:\x7bpassword\x7d"), stored 64 [], stored 49 (ascii "aes:1,token"), true⟩, .ret true) :=
  recvProc_message ⟨[], [], [], false⟩ true (by decide) (by decide) (by decide) (by decide +kernel) (by decide +kernel) (by decide +kernel)
    (by decide) (by decide)

/-! ### Failures -/

/-- No search goes on from a null pointer, and a call that fails leaves the target alone. -/
def SafeAndAtomic (st : Target) (buf : Bytes) : Prop :=
  (recvProc st buf).2 ≠ .stray ∧ ((recvProc st buf).2 = .ret false → (recvProc st buf).1 = st)

/-- The key of the last field is missing, or it has a colon behind it and a quote behind that. -/
def AesComplete (pos : Bytes) : Prop :=
  ∀ key, strstr pos aesKey = some key → ∃ pre post, key = pre ++ colon :: post ∧ colon ∉ pre ∧ quote ∈ post

/-- What a message must be like for a target: it fails before anything is stored, or the
values stored before it fails are those of the target, or the last field is complete. -/
def Harmless (st : Target) (buf : Bytes) : Prop :=
  ¬(buf.length > recvJsonDataLenMin ∧ buf.length < recvJsonDataLenMax) ∨
  ssidField (cString buf) = none ∨
  ∃ ssid afterSsid, ssidField (cString buf) = some (ssid, afterSsid) ∧
    (passwordField afterSsid = none ∧ st.ssid = stored (wlanSsidMaxLen + 1) ssid ∨
    ∃ pwd afterPwd, passwordField afterSsid = some (pwd, afterPwd) ∧
      (tokenField afterPwd = none ∧ st.ssid = stored (wlanSsidMaxLen + 1) ssid ∧ st.pwd = stored wlanPwdMaxLen pwd ∨
      ∃ token afterToken, tokenField afterPwd = some (token, afterToken) ∧ AesComplete afterToken))

/-- The last field goes astray exactly where it is not complete. -/
theorem aesField_cases (pos : Bytes) :
    (aesField pos).2 = .ret true ∧ AesComplete pos ∨ (aesField pos).2 = .stray ∧ ¬AesComplete pos := by
  unfold aesField
  cases hkey : strstr pos aesKey with
  | none =>
    refine .inl ⟨rfl, ?_⟩
    intro key h
    rw [hkey] at h
    cases h
  | some key =>
    dsimp only
    cases hcolon : strchr key colon with
    | none =>
      refine .inr ⟨rfl, ?_⟩
      intro hc
      obtain ⟨pre, post, rfl, hpre, -⟩ := hc key hkey
      rw [strchr, Text.findSymbol_append hpre] at hcolon
      cases hcolon
    | some found =>
      obtain ⟨pre, post, rfl, hpre, rfl⟩ := Text.findSymbol_split hcolon
      dsimp only
      rw [List.drop_succ_cons, List.drop_zero]
      cases hquote : strchr post quote with
      | none =>
        refine .inr ⟨rfl, ?_⟩
        intro hc
        obtain ⟨pre', post', heq, hpre', hmem⟩ := hc _ hkey
        rw [heq, strchr, Text.findSymbol_append hpre'] at hcolon
        obtain rfl : post' = post := (List.cons.inj (Option.some.inj hcolon)).2
        exact Text.findSymbol_eq_none_iff.mp hquote hmem
      | some last =>
        refine .inl ⟨rfl, ?_⟩
        intro key h
        rw [hkey] at h
        cases h
        obtain ⟨pre', post', rfl, -, -⟩ := Text.findSymbol_split hquote
        exact ⟨pre, _, rfl, hpre, List.mem_append_right _ List.mem_cons_self⟩

theorem Target.ssid_stored_iff (st : Target) (x : Bytes) : { st with ssid := x } = st ↔ st.ssid = x := by
  constructor
  · intro h
    exact (congrArg Target.ssid h).symm
  · rintro rfl
    rfl

theorem Target.pwd_stored_iff (st : Target) (x y : Bytes) :
    { st with ssid := x, pwd := y } = st ↔ st.ssid = x ∧ st.pwd = y := by
  constructor
  · intro h
    exact ⟨(congrArg Target.ssid h).symm, (congrArg Target.pwd h).symm⟩
  · rintro ⟨rfl, rfl⟩
    rfl

/-- A call that fails after some stores. -/
theorem failed_iff {P : Prop} : (Outcome.ret false ≠ .stray ∧ (Outcome.ret false = .ret false → P)) ↔ P := by
  constructor
  · exact fun h => h.2 rfl
  · exact fun h => ⟨fun hstray => (nomatch hstray), fun _ => h⟩

/-- A call is safe and atomic exactly if its message is harmless for the target. -/
theorem safeAndAtomic_iff (st : Target) (buf : Bytes) : SafeAndAtomic st buf ↔ Harmless st buf := by
  unfold SafeAndAtomic Harmless recvProc
  by_cases hlen : buf.length > recvJsonDataLenMin ∧ buf.length < recvJsonDataLenMax
  swap
  · rw [if_neg hlen]
    exact iff_of_true (failed_iff.mpr rfl) (.inl hlen)
  rw [if_pos hlen, or_iff_right (not_not.mpr hlen)]
  cases hssid : ssidField (cString buf) with
  | none => exact iff_of_true (failed_iff.mpr rfl) (.inl rfl)
  | some r =>
    obtain ⟨ssid, afterSsid⟩ := r
    rw [or_iff_right (Option.some_ne_none _)]
    dsimp only
    cases hpwd : passwordField afterSsid with
    | none =>
      dsimp only
      rw [failed_iff, Target.ssid_stored_iff]
      constructor
      · exact fun h => ⟨ssid, afterSsid, rfl, .inl ⟨hpwd, h⟩⟩
      · rintro ⟨_, _, heq, ⟨-, h⟩ | ⟨_, _, hsome, -⟩⟩
        · cases heq
          exact h
        · cases heq
          rw [hpwd] at hsome
          cases hsome
    | some r =>
      obtain ⟨pwd, afterPwd⟩ := r
      dsimp only
      cases htoken : tokenField afterPwd with
      | none =>
        dsimp only
        rw [failed_iff, Target.pwd_stored_iff]
        constructor
        · exact fun h => ⟨ssid, afterSsid, rfl, .inr ⟨pwd, afterPwd, hpwd, .inl ⟨htoken, h⟩⟩⟩
        · rintro ⟨_, _, heq, ⟨hnone, -⟩ | ⟨_, _, hsome, hrest⟩⟩
          · cases heq
            rw [hpwd] at hnone
            cases hnone
          · cases heq
            rw [hpwd] at hsome
            cases hsome
            rcases hrest with ⟨-, h⟩ | ⟨_, _, hsome, -⟩
            · exact h
            · rw [htoken] at hsome
              cases hsome
      | some r =>
        obtain ⟨token, afterToken⟩ := r
        dsimp only
        rcases aesField_cases afterToken with ⟨hret, hcomplete⟩ | ⟨hret, hcomplete⟩
        · rw [hret]
          refine iff_of_true ⟨fun h => (nomatch h), fun h => (nomatch h)⟩ ?_
          exact ⟨ssid, afterSsid, rfl, .inr ⟨pwd, afterPwd, hpwd, .inr ⟨token, afterToken, htoken, hcomplete⟩⟩⟩
        · rw [hret]
          refine iff_of_false (fun h => h.1 rfl) ?_
          rintro ⟨_, _, heq, ⟨hnone, -⟩ | ⟨_, _, hsome, hrest⟩⟩
          · cases heq
            rw [hpwd] at hnone
            cases hnone
          · cases heq
            rw [hpwd] at hsome
            cases hsome
            rcases hrest with ⟨hnone, -⟩ | ⟨_, _, hsome, h⟩
            · rw [htoken] at hnone
              cases hnone
            · rw [htoken] at hsome
              cases hsome
              exact hcomplete h

/-- The last field without a quote sends the search astray; a message cut off behind the
name fails with the name stored. -/
theorem not_safeAndAtomic :
    ¬SafeAndAtomic ⟨stored 33 [], stored 64 [], stored 49 [], false⟩
      (ascii "\x7b\"cmdType\":1,\"ssid\":\"Home-WiFi\",\"password\":\"12345678\",\"token\":\"6ab82618a9d5\",\"aes\":0\x7d") ∧
    ¬SafeAndAtomic ⟨stored 33 [], stored 64 [], stored 49 [], false⟩
      (ascii "\x7b\"cmdType\":1,\"ssid\":\"Home-WiFi\",\"passphrase\":\"12345678\",\"token\":\"6ab82618a9d5\",\"aes\":\"0\"\x7d") := by
  constructor
  · rintro ⟨hstray, -⟩
    exact hstray (by decide +kernel)
  · rintro ⟨-, hsame⟩
    have h := hsame (by decide +kernel)
    revert h
    decide +kernel

end Ln882x.SoftApCfg
