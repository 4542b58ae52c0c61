import SearchEvery.JsonText
import Mathlib.Data.List.DropRight
import Mathlib.Tactic

/-!
# Reading JSON texts

A reader of JSON texts by recursive descent.  Numbers and strings are kept as
they are written; whether the escapes of a string name characters is asked
only by those who need its text.  What the reader accepts is closed, and it
never wants for depth.
-/

namespace JsonParse

open JsonText

inductive Json
  | null
  | bool (b : Bool)
  | number (written : List Char)
  | string (raw : List Char)
  | array (items : List Json)
  | object (entries : List (List Char × Json))

/-- What is read, and the characters behind it. -/
abbrev Reader (α : Type) := List Char → Option (α × List Char)

def isSpace (c : Char) : Bool := c == ' ' || c == '\n' || c == '\t' || c == '\r'

def skipSpace (chars : List Char) : List Char := chars.dropWhile isSpace

/-! ## Strings -/

def isHex (c : Char) : Bool :=
  c.isDigit || ('a' ≤ c && c ≤ 'f') || ('A' ≤ c && c ≤ 'F')

/-- The character which an escape of one letter stands for. -/
def escapeTarget (c : Char) : Option Char :=
  if c = '"' ∨ c = '\\' ∨ c = '/' then some c
  else if c = 'b' then some '\x08'
  else if c = 'f' then some '\x0c'
  else if c = 'n' then some '\n'
  else if c = 'r' then some '\r'
  else if c = 't' then some '\t'
  else none

inductive StringMode
  | plain
  | escape
  | hex (left : ℕ)
  deriving DecidableEq

def StringMode.next (mode : StringMode) (c : Char) : Option StringMode :=
  match mode with
  | .plain =>
      if c = '\\' then some .escape
      else if c.toNat < 32 then none
      else some .plain
  | .escape =>
      if c = 'u' then some (.hex 3)
      else if (escapeTarget c).isSome then some .plain
      else none
  | .hex left =>
      if isHex c then some (if left = 0 then .plain else .hex (left - 1))
      else none

/-- The characters up to the closing quotation mark. -/
def stringBody : StringMode → Reader (List Char)
  | _, [] => none
  | mode, c :: rest =>
      if mode = .plain ∧ c = '"' then some ([], rest)
      else (mode.next c).bind fun mode =>
        (stringBody mode rest).map (Prod.map (c :: ·) id)

def hexValue (c : Char) : ℕ :=
  if c.isDigit then c.toNat - 48
  else if 'a' ≤ c then c.toNat - 87
  else c.toNat - 55

/-- What a code unit adds to the text; `pending` is a leading surrogate which
waits for its other half. -/
def joinUnit (pending : Option ℕ) (unit : ℕ) :
    Option (Option ℕ × List Char) :=
  match pending with
  | none =>
      if 0xD800 ≤ unit ∧ unit < 0xDC00 then some (some unit, [])
      else if 0xDC00 ≤ unit ∧ unit < 0xE000 then none
      else some (none, [Char.ofNat unit])
  | some lead =>
      if 0xDC00 ≤ unit ∧ unit < 0xE000 then
        some (none, [Char.ofNat
          (0x10000 + (lead - 0xD800) * 0x400 + (unit - 0xDC00))])
      else none

/-- The text of a string body; a surrogate without its other half has none. -/
def unescapeFrom : StringMode → Option ℕ → ℕ → List Char → Option (List Char)
  | mode, pending, _, [] =>
      if mode = .plain ∧ pending = none then some [] else none
  | .plain, pending, _, c :: rest =>
      if c = '\\' then unescapeFrom .escape pending 0 rest
      else if pending = none then
        (unescapeFrom .plain none 0 rest).map (c :: ·)
      else none
  | .escape, pending, _, c :: rest =>
      if c = 'u' then unescapeFrom (.hex 3) pending 0 rest
      else if pending = none then
        (escapeTarget c).bind fun target =>
          (unescapeFrom .plain none 0 rest).map (target :: ·)
      else none
  | .hex left, pending, unit, c :: rest =>
      if left = 0 then
        (joinUnit pending (16 * unit + hexValue c)).bind fun joined =>
          (unescapeFrom .plain joined.1 0 rest).map (joined.2 ++ ·)
      else unescapeFrom (.hex (left - 1)) pending (16 * unit + hexValue c) rest

def unescape (raw : List Char) : Option (List Char) :=
  unescapeFrom .plain none 0 raw

/-! ## Numbers -/

/-- One reader after the other, and their texts together. -/
def andThen (first second : Reader (List Char)) : Reader (List Char) :=
  fun chars => (first chars).bind fun front =>
    (second front.2).map (Prod.map (front.1 ++ ·) id)

def nothing : Reader (List Char) := fun chars => some ([], chars)

def optionally (starts : Char → Bool) (part : Reader (List Char)) :
    Reader (List Char)
  | [] => some ([], [])
  | c :: rest =>
      if starts c then (part rest).map (Prod.map (c :: ·) id)
      else some ([], c :: rest)

def digits : Reader (List Char) := fun chars =>
  if chars.takeWhile Char.isDigit = [] then none
  else some (chars.takeWhile Char.isDigit, chars.dropWhile Char.isDigit)

/-- Digits without a zero in front. -/
def integerPart : Reader (List Char) := fun chars =>
  (digits chars).filter fun run => run.1 == ['0'] || run.1.head? != some '0'

def fractionPart : Reader (List Char) := optionally (· == '.') digits

def exponentPart : Reader (List Char) :=
  optionally (fun c => c == 'e' || c == 'E')
    (andThen (optionally (fun c => c == '+' || c == '-') nothing) digits)

def numberText : Reader (List Char) :=
  andThen (optionally (· == '-') nothing)
    (andThen integerPart (andThen fractionPart exponentPart))

/-! ## Values -/

def keyword (word : String) (value : Json) : Reader Json := fun chars =>
  if word.toList <+: chars then some (value, chars.drop word.toList.length)
  else none

def scalar : Reader Json
  | [] => none
  | c :: rest =>
      if c = '"' then (stringBody .plain rest).map (Prod.map .string id)
      else if c = 'n' then keyword "null" .null (c :: rest)
      else if c = 't' then keyword "true" (.bool true) (c :: rest)
      else if c = 'f' then keyword "false" (.bool false) (c :: rest)
      else (numberText (c :: rest)).map (Prod.map .number id)

section Items

variable {α : Type} (item : Reader α) (closing : Char)

/-- Items with commas between them, up to the closing bracket. -/
def sepItems : ℕ → Reader (List α)
  | 0, _ => none
  | fuel + 1, chars =>
      (item chars).bind fun first =>
        match skipSpace first.2 with
        | [] => none
        | c :: rest =>
            if c = closing then some ([first.1], rest)
            else if c = ',' then
              (sepItems fuel rest).map (Prod.map (first.1 :: ·) id)
            else none

def bracketedItems : Reader (List α) := fun chars =>
  match skipSpace chars with
  | [] => none
  | c :: rest =>
      if c = closing then some ([], rest)
      else sepItems item closing chars.length (c :: rest)

end Items

def member (value : Reader Json) : Reader (List Char × Json) := fun chars =>
  match skipSpace chars with
  | [] => none
  | c :: rest =>
      if c = '"' then
        (stringBody .plain rest).bind fun key =>
          match skipSpace key.2 with
          | [] => none
          | d :: rest =>
              if d = ':' then (value rest).map (Prod.map (key.1, ·) id)
              else none
      else none

/-- A value with at most so many brackets around each other. -/
def value : ℕ → Reader Json
  | 0, chars => scalar (skipSpace chars)
  | depth + 1, chars =>
      match skipSpace chars with
      | [] => none
      | c :: rest =>
          if c = '[' then
            (bracketedItems (value depth) ']' rest).map (Prod.map .array id)
          else if c = '{' then
            (bracketedItems (member (value depth)) '}' rest).map
              (Prod.map .object id)
          else scalar (c :: rest)

/-- The depth is no bound: a text has no more brackets than characters. -/
def readValue : Reader Json := fun chars => value chars.length chars

def parse (chars : List Char) : Option Json :=
  (readValue chars).bind fun result =>
    if skipSpace result.2 = [] then some result.1 else none

/-! ## What is accepted is closed -/

/-- What is taken off the front leads the scanner back to where it was. -/
def Sound {α : Type} (reader : Reader α) : Prop :=
  ∀ chars a rest, reader chars = some (a, rest) →
    ∃ front, front ≠ [] ∧ chars = front ++ rest ∧ Stays .outside front

/-- The text is taken off the front, and it has no quotation mark and no
bracket. -/
def Takes (reader : Reader (List Char)) : Prop :=
  ∀ chars front rest, reader chars = some (front, rest) →
    chars = front ++ rest ∧ ∀ c ∈ front, Plain c

theorem map_eq_some_pair
    {α β : Type} {f : α → β} {result : Option (α × List Char)} {b : β}
    {rest : List Char} (hmap : result.map (Prod.map f id) = some (b, rest)) :
    ∃ a, result = some (a, rest) ∧ f a = b := by
  obtain ⟨⟨a, back⟩, hresult, hpair⟩ := Option.map_eq_some_iff.mp hmap
  simp only [Prod.map, id_eq, Prod.mk.injEq] at hpair
  exact ⟨a, hpair.2 ▸ hresult, hpair.1⟩

theorem exists_skipSpace
    (chars : List Char) :
    ∃ space, chars = space ++ skipSpace chars ∧ Stays .outside space := by
  refine ⟨chars.takeWhile isSpace, (List.takeWhile_append_dropWhile ..).symm, ?_⟩
  apply stays_of_plain
  intro c hc
  have hspace := List.mem_takeWhile_imp hc
  refine ⟨?_, ?_, ?_, ?_, ?_⟩ <;> rintro rfl <;> simp [isSpace] at hspace

def StringMode.scanMode : StringMode → Mode
  | .plain => .inString
  | .escape => .escaped
  | .hex _ => .inString

theorem isHex_plain {c : Char} (hc : isHex c) : c ≠ '\\' ∧ c ≠ '"' := by
  refine ⟨?_, ?_⟩ <;> rintro rfl <;> simp [isHex] at hc

theorem StringMode.next_scan
    {mode after : StringMode} {c : Char} (hnext : mode.next c = some after)
    (hgo : ¬(mode = .plain ∧ c = '"')) (depth : ℕ) :
    Scan.next ⟨depth, mode.scanMode⟩ c = ⟨depth, after.scanMode⟩ := by
  cases mode with
  | plain =>
      have hquote : c ≠ '"' := fun hc => hgo ⟨rfl, hc⟩
      simp only [StringMode.next] at hnext
      split at hnext
      next hback =>
        rw [← Option.some.inj hnext, hback]
        rfl
      next hback =>
        split at hnext
        · simp at hnext
        · rw [← Option.some.inj hnext]
          simp [StringMode.scanMode, Scan.next, hback, hquote]
  | escape =>
      simp only [StringMode.next] at hnext
      split at hnext
      · rw [← Option.some.inj hnext]
        rfl
      · split at hnext
        · rw [← Option.some.inj hnext]
          rfl
        · simp at hnext
  | hex left =>
      simp only [StringMode.next] at hnext
      split at hnext
      next hhex =>
        obtain ⟨hback, hquote⟩ := isHex_plain hhex
        rw [← Option.some.inj hnext]
        split <;> simp [StringMode.scanMode, Scan.next, hback, hquote]
      next => simp at hnext

theorem stringBody_sound
    {mode : StringMode} {chars raw rest : List Char}
    (hread : stringBody mode chars = some (raw, rest)) :
    chars = raw ++ '"' :: rest ∧
      ∀ depth, scan ⟨depth, mode.scanMode⟩ raw = ⟨depth, .inString⟩ ∧
        ∀ n, depth ≤ (scan ⟨depth, mode.scanMode⟩ (raw.take n)).depth := by
  induction chars generalizing mode raw with
  | nil => simp [stringBody] at hread
  | cons c chars ih =>
      rw [stringBody] at hread
      split at hread
      next hend =>
        obtain ⟨rfl, rfl⟩ := hend
        obtain ⟨rfl, rfl⟩ := Prod.mk.inj (Option.some.inj hread)
        exact ⟨rfl, fun depth => ⟨rfl, by simp⟩⟩
      next hgo =>
        obtain ⟨after, hnext, hread⟩ := Option.bind_eq_some_iff.mp hread
        obtain ⟨body, hbody, rfl⟩ := map_eq_some_pair hread
        obtain ⟨hchars, hscan⟩ := ih hbody
        refine ⟨by rw [hchars]; rfl, ?_⟩
        intro depth
        have hstep := StringMode.next_scan hnext hgo depth
        refine ⟨by rw [scan_cons, hstep, (hscan depth).1], ?_⟩
        intro n
        cases n with
        | zero => simp
        | succ n =>
            rw [List.take_succ_cons, scan_cons, hstep]
            exact (hscan depth).2 n

theorem exists_string
    {chars raw rest : List Char}
    (hread : stringBody .plain chars = some (raw, rest)) :
    '"' :: chars = ('"' :: raw ++ ['"']) ++ rest ∧
      Stays .outside ('"' :: raw ++ ['"']) := by
  obtain ⟨hchars, hscan⟩ := stringBody_sound hread
  refine ⟨by simp [hchars], ?_⟩
  exact @stays_wrap .outside .inString '"' '"' raw hscan 0
    (fun _ => rfl) (fun _ => rfl)

theorem Takes.andThen
    {first second : Reader (List Char)} (hfirst : Takes first)
    (hsecond : Takes second) : Takes (andThen first second) := by
  intro chars front rest hread
  obtain ⟨⟨lead, between⟩, hlead, hread⟩ := Option.bind_eq_some_iff.mp hread
  obtain ⟨tail, htail, rfl⟩ := map_eq_some_pair hread
  obtain ⟨rfl, hplain⟩ := hfirst _ _ _ hlead
  obtain ⟨rfl, hrest⟩ := hsecond _ _ _ htail
  refine ⟨by simp, ?_⟩
  intro c hc
  rcases List.mem_append.mp hc with hc | hc
  · exact hplain c hc
  · exact hrest c hc

theorem takes_nothing : Takes nothing := by
  intro chars front rest hread
  obtain ⟨rfl, rfl⟩ := Prod.mk.inj (Option.some.inj hread)
  simp

theorem Takes.optionally
    {starts : Char → Bool} {part : Reader (List Char)} (hpart : Takes part)
    (hstarts : ∀ c, starts c → Plain c) : Takes (optionally starts part) := by
  intro chars front rest hread
  cases chars with
  | nil =>
      obtain ⟨rfl, rfl⟩ := Prod.mk.inj (Option.some.inj hread)
      simp
  | cons c chars =>
      rw [JsonParse.optionally] at hread
      split at hread
      next hc =>
        obtain ⟨tail, htail, rfl⟩ := map_eq_some_pair hread
        obtain ⟨rfl, hplain⟩ := hpart _ _ _ htail
        exact ⟨rfl, List.forall_mem_cons.mpr ⟨hstarts c hc, hplain⟩⟩
      next =>
        obtain ⟨rfl, rfl⟩ := Prod.mk.inj (Option.some.inj hread)
        simp

theorem plain_of_isDigit {c : Char} (hc : c.isDigit) : Plain c := by
  refine ⟨?_, ?_, ?_, ?_, ?_⟩ <;> rintro rfl <;> simp at hc

theorem takes_digits : Takes digits := by
  intro chars front rest hread
  unfold digits at hread
  split at hread
  next => simp at hread
  next =>
    obtain ⟨rfl, rfl⟩ := Prod.mk.inj (Option.some.inj hread)
    refine ⟨(List.takeWhile_append_dropWhile ..).symm, ?_⟩
    exact fun c hc => plain_of_isDigit (List.mem_takeWhile_imp hc)

theorem takes_integerPart : Takes integerPart := by
  intro chars front rest hread
  exact takes_digits _ _ _ (Option.filter_eq_some_iff.mp hread).1

theorem takes_numberText : Takes numberText := by
  have hsign : Takes (optionally (fun c => c == '+' || c == '-') nothing) :=
    Takes.optionally takes_nothing fun c hc => by
      simp only [Bool.or_eq_true, beq_iff_eq] at hc
      rcases hc with rfl | rfl <;> decide
  have hminus : Takes (optionally (· == '-') nothing) :=
    Takes.optionally takes_nothing fun c hc => by
      rw [beq_iff_eq.mp hc]
      decide
  have hfraction : Takes fractionPart :=
    Takes.optionally takes_digits fun c hc => by
      rw [beq_iff_eq.mp hc]
      decide
  have hexponent : Takes exponentPart :=
    Takes.optionally (hsign.andThen takes_digits) fun c hc => by
      simp only [Bool.or_eq_true, beq_iff_eq] at hc
      rcases hc with rfl | rfl <;> decide
  exact hminus.andThen (takes_integerPart.andThen (hfraction.andThen hexponent))

theorem numberText_ne_nil
    {chars front rest : List Char}
    (hread : numberText chars = some (front, rest)) : front ≠ [] := by
  obtain ⟨⟨sign, between⟩, _, hread⟩ := Option.bind_eq_some_iff.mp hread
  obtain ⟨tail, htail, rfl⟩ := map_eq_some_pair hread
  obtain ⟨⟨run, behind⟩, hrun, htail⟩ := Option.bind_eq_some_iff.mp htail
  obtain ⟨back, _, rfl⟩ := map_eq_some_pair htail
  have hdigits := (Option.filter_eq_some_iff.mp hrun).1
  unfold digits at hdigits
  split at hdigits
  next => simp at hdigits
  next hne =>
    obtain ⟨rfl, rfl⟩ := Prod.mk.inj (Option.some.inj hdigits)
    simp [hne]

theorem Takes.sound
    {reader : Reader (List Char)} (htakes : Takes reader)
    (hne : ∀ chars front rest, reader chars = some (front, rest) → front ≠ [])
    {chars a rest : List Char} (hread : reader chars = some (a, rest)) :
    ∃ front, front ≠ [] ∧ chars = front ++ rest ∧ Stays .outside front := by
  obtain ⟨hchars, hplain⟩ := htakes _ _ _ hread
  exact ⟨a, hne _ _ _ hread, hchars, stays_of_plain hplain⟩

theorem keyword_sound
    {word : String} {v : Json} (hne : word.toList ≠ [])
    (hplain : ∀ c ∈ word.toList, Plain c) : Sound (keyword word v) := by
  intro chars a rest hread
  unfold keyword at hread
  split at hread
  next hprefix =>
    obtain ⟨back, rfl⟩ := hprefix
    obtain ⟨rfl, rfl⟩ := Prod.mk.inj (Option.some.inj hread)
    exact ⟨word.toList, hne, by simp, stays_of_plain hplain⟩
  next => simp at hread

theorem scalar_sound : Sound scalar := by
  intro chars a rest hread
  cases chars with
  | nil => simp [scalar] at hread
  | cons c chars =>
      rw [scalar] at hread
      split at hread
      next hquote =>
        obtain ⟨raw, hraw, rfl⟩ := map_eq_some_pair hread
        obtain ⟨hchars, hstays⟩ := exists_string hraw
        exact ⟨_, by simp, hquote ▸ hchars, hstays⟩
      next =>
      split at hread
      next => exact keyword_sound (by decide) (by decide) _ _ _ hread
      next =>
      split at hread
      next => exact keyword_sound (by decide) (by decide) _ _ _ hread
      next =>
      split at hread
      next => exact keyword_sound (by decide) (by decide) _ _ _ hread
      next =>
        obtain ⟨written, hwritten, rfl⟩ := map_eq_some_pair hread
        exact takes_numberText.sound (fun _ _ _ => numberText_ne_nil) hwritten

theorem stays_singleton {c : Char} (hc : Plain c) : Stays .outside [c] :=
  stays_of_plain fun _ hd => List.mem_singleton.mp hd ▸ hc

section Items

variable {α : Type} {item : Reader α} {closing : Char}

theorem sepItems_sound
    (hitem : Sound item) {fuel : ℕ} {chars rest : List Char} {items : List α}
    (hread : sepItems item closing fuel chars = some (items, rest)) :
    ∃ body, chars = body ++ closing :: rest ∧ Stays .outside body := by
  induction fuel generalizing chars items with
  | zero => simp [sepItems] at hread
  | succ fuel ih =>
      obtain ⟨⟨first, behind⟩, hfirst, hmore⟩ :=
        Option.bind_eq_some_iff.mp hread
      obtain ⟨front, _, rfl, hfront⟩ := hitem _ _ _ hfirst
      obtain ⟨space, hspace, hblank⟩ := exists_skipSpace behind
      cases hskip : skipSpace behind with
      | nil => simp [hskip] at hmore
      | cons c back =>
          rw [hskip] at hspace
          simp only [hskip] at hmore
          split at hmore
          next hc =>
            obtain ⟨-, rfl⟩ := Prod.mk.inj (Option.some.inj hmore)
            refine ⟨front ++ space, ?_, hfront.append hblank⟩
            rw [hspace, hc, List.append_assoc]
          next =>
            split at hmore
            next hc =>
              obtain ⟨others, hothers, rfl⟩ := map_eq_some_pair hmore
              obtain ⟨body, rfl, hbody⟩ := ih hothers
              refine ⟨front ++ space ++ [','] ++ body, ?_, ?_⟩
              · rw [hspace, hc]
                simp
              · exact ((hfront.append hblank).append
                  (stays_singleton (by decide))).append hbody
            next => simp at hmore

theorem bracketedItems_sound
    (hitem : Sound item) {chars rest : List Char} {items : List α}
    (hread : bracketedItems item closing chars = some (items, rest)) :
    ∃ body, chars = body ++ closing :: rest ∧ Stays .outside body := by
  obtain ⟨space, hspace, hblank⟩ := exists_skipSpace chars
  unfold bracketedItems at hread
  cases hskip : skipSpace chars with
  | nil => simp [hskip] at hread
  | cons c back =>
      simp only [hskip] at hread
      split at hread
      next hc =>
        obtain ⟨-, rfl⟩ := Prod.mk.inj (Option.some.inj hread)
        exact ⟨space, by rw [hspace, hskip, hc], hblank⟩
      next =>
        obtain ⟨body, hbody, hstays⟩ := sepItems_sound hitem hread
        refine ⟨space ++ body, ?_, hblank.append hstays⟩
        rw [hspace, hskip, hbody, List.append_assoc]

end Items

theorem member_sound
    {reader : Reader Json} (hreader : Sound reader) :
    Sound (member reader) := by
  intro chars a rest hread
  obtain ⟨space, hspace, hblank⟩ := exists_skipSpace chars
  unfold member at hread
  cases hskip : skipSpace chars with
  | nil => simp [hskip] at hread
  | cons c back =>
      simp only [hskip] at hread
      split at hread
      next hc =>
        obtain ⟨⟨key, behind⟩, hkey, hread⟩ := Option.bind_eq_some_iff.mp hread
        obtain ⟨hchars, hstays⟩ := exists_string hkey
        obtain ⟨gap, hgap, hgapStays⟩ := exists_skipSpace behind
        cases hcolon : skipSpace behind with
        | nil => simp [hcolon] at hread
        | cons d back =>
            simp only [hcolon] at hread
            split at hread
            next hd =>
              obtain ⟨v, hv, rfl⟩ := map_eq_some_pair hread
              obtain ⟨front, _, rfl, hfront⟩ := hreader _ _ _ hv
              refine ⟨space ++ ('"' :: key ++ ['"']) ++ gap ++ [':'] ++ front,
                by simp, ?_, ?_⟩
              · rw [hspace, hskip, hc, hchars, hgap, hcolon, hd]
                simp
              · exact (((hblank.append hstays).append hgapStays).append
                  (stays_singleton (by decide))).append hfront
            next => simp at hread
      next => simp at hread

theorem value_sound (depth : ℕ) : Sound (value depth) := by
  induction depth with
  | zero =>
      intro chars a rest hread
      obtain ⟨space, hspace, hblank⟩ := exists_skipSpace chars
      obtain ⟨front, hne, hfront, hstays⟩ := scalar_sound _ _ _ hread
      refine ⟨space ++ front, by simp [hne], ?_, hblank.append hstays⟩
      rw [hspace, hfront, List.append_assoc]
  | succ depth ih =>
      intro chars a rest hread
      obtain ⟨space, hspace, hblank⟩ := exists_skipSpace chars
      rw [value] at hread
      cases hskip : skipSpace chars with
      | nil => simp [hskip] at hread
      | cons c back =>
          rw [hskip] at hspace
          simp only [hskip] at hread
          split at hread
          next hc =>
            obtain ⟨items, hitems, rfl⟩ := map_eq_some_pair hread
            obtain ⟨body, rfl, hbody⟩ := bracketedItems_sound ih hitems
            refine ⟨space ++ ('[' :: body ++ [']']), by simp, ?_, ?_⟩
            · rw [hspace, hc]
              simp
            · exact hblank.append (@stays_wrap .outside .outside '[' ']' _
                hbody 1 (fun _ => rfl) (fun _ => rfl))
          next =>
          split at hread
          next hc =>
            obtain ⟨entries, hentries, rfl⟩ := map_eq_some_pair hread
            obtain ⟨body, rfl, hbody⟩ :=
              bracketedItems_sound (member_sound ih) hentries
            refine ⟨space ++ ('{' :: body ++ ['}']), by simp, ?_, ?_⟩
            · rw [hspace, hc]
              simp
            · exact hblank.append (@stays_wrap .outside .outside '{' '}' _
                hbody 1 (fun _ => rfl) (fun _ => rfl))
          next =>
            obtain ⟨front, hne, hfront, hstays⟩ := scalar_sound _ _ _ hread
            refine ⟨space ++ front, by simp [hne], ?_, hblank.append hstays⟩
            rw [hspace, hfront, List.append_assoc]

/-! ## Depth and fuel are no bounds -/

theorem length_skipSpace_le (chars : List Char) :
    (skipSpace chars).length ≤ chars.length :=
  List.length_dropWhile_le isSpace chars

theorem Sound.length_lt
    {α : Type} {reader : Reader α} (hsound : Sound reader)
    {chars rest : List Char} {a : α} (hread : reader chars = some (a, rest)) :
    rest.length < chars.length := by
  obtain ⟨front, hne, rfl, _⟩ := hsound _ _ _ hread
  have hpos := List.length_pos_iff.mpr hne
  rw [List.length_append]
  omega

section Items

variable {α : Type} {item other : Reader α} {closing : Char} {size : ℕ}

theorem sepItems_enough
    (hitem : Sound item)
    (hagree : ∀ chars r, chars.length ≤ size → item chars = some r →
      other chars = some r)
    {fuel enough : ℕ} {chars : List Char} {r : List α × List Char}
    (hsize : chars.length ≤ size) (henough : chars.length ≤ enough)
    (hread : sepItems item closing fuel chars = some r) :
    sepItems other closing enough chars = some r := by
  induction fuel generalizing chars enough r with
  | zero => simp [sepItems] at hread
  | succ fuel ih =>
      obtain ⟨⟨first, behind⟩, hfirst, hmore⟩ :=
        Option.bind_eq_some_iff.mp hread
      have hshort := hitem.length_lt hfirst
      have hskip := length_skipSpace_le behind
      obtain ⟨left, rfl⟩ := Nat.exists_eq_succ_of_ne_zero
        (by omega : enough ≠ 0)
      rw [sepItems, hagree _ _ hsize hfirst, Option.bind_some]
      dsimp only at hmore ⊢
      cases hback : skipSpace behind with
      | nil => simp [hback] at hmore
      | cons c back =>
          rw [hback, List.length_cons] at hskip
          simp only [hback] at hmore ⊢
          split at hmore
          next hc => rw [if_pos hc, hmore]
          next hc =>
            rw [if_neg hc]
            split at hmore
            next hcomma =>
              obtain ⟨⟨others, rest⟩, hothers, rfl⟩ :=
                Option.map_eq_some_iff.mp hmore
              rw [if_pos hcomma, ih (by omega) (by omega) hothers]
              rfl
            next => simp at hmore

theorem bracketedItems_enough
    (hitem : Sound item)
    (hagree : ∀ chars r, chars.length ≤ size → item chars = some r →
      other chars = some r)
    {chars : List Char} {r : List α × List Char} (hsize : chars.length ≤ size)
    (hread : bracketedItems item closing chars = some r) :
    bracketedItems other closing chars = some r := by
  have hskip := length_skipSpace_le chars
  unfold bracketedItems at hread ⊢
  cases hback : skipSpace chars with
  | nil => simp [hback] at hread
  | cons c back =>
      rw [hback] at hskip
      simp only [hback] at hread ⊢
      split at hread
      next hc => rw [if_pos hc, hread]
      next hc =>
        rw [if_neg hc]
        exact sepItems_enough hitem hagree (by omega) hskip hread

end Items

theorem member_enough
    {reader other : Reader Json} {size : ℕ}
    (hagree : ∀ chars r, chars.length ≤ size → reader chars = some r →
      other chars = some r)
    {chars : List Char} {r : (List Char × Json) × List Char}
    (hsize : chars.length ≤ size) (hread : member reader chars = some r) :
    member other chars = some r := by
  have hskip := length_skipSpace_le chars
  unfold member at hread ⊢
  cases hback : skipSpace chars with
  | nil => simp [hback] at hread
  | cons c back =>
      rw [hback, List.length_cons] at hskip
      simp only [hback] at hread ⊢
      split at hread
      next hc =>
        obtain ⟨⟨key, behind⟩, hkey, hread⟩ := Option.bind_eq_some_iff.mp hread
        have hchars := congrArg List.length (exists_string hkey).1
        rw [if_pos hc, hkey, Option.bind_some]
        have hgap := length_skipSpace_le behind
        dsimp only at hread ⊢
        cases hcolon : skipSpace behind with
        | nil => simp [hcolon] at hread
        | cons d rest =>
            rw [hcolon, List.length_cons] at hgap
            simp only [hcolon] at hread ⊢
            split at hread
            next hd =>
              obtain ⟨⟨v, after⟩, hv, rfl⟩ := Option.map_eq_some_iff.mp hread
              simp only [List.length_cons, List.length_append] at hchars
              rw [if_pos hd, hagree _ _ (by omega) hv]
              rfl
            next => simp at hread
      next => simp at hread

theorem scalar_head
    {c : Char} {rest : List Char} {r : Json × List Char}
    (hread : scalar (c :: rest) = some r) : c ≠ '[' ∧ c ≠ '{' := by
  refine ⟨?_, ?_⟩ <;> rintro rfl <;>
    simp [scalar, numberText, andThen, optionally, integerPart, digits] at hread

theorem value_eq_scalar
    {chars rest : List Char} {c : Char} (hskip : skipSpace chars = c :: rest)
    (hc : c ≠ '[' ∧ c ≠ '{') (depth : ℕ) :
    value depth chars = scalar (c :: rest) := by
  cases depth with
  | zero => rw [value, hskip]
  | succ depth =>
      rw [value]
      simp only [hskip, if_neg hc.1, if_neg hc.2]

/-- More depth reads the same, and so does a depth of the length. -/
theorem value_enough
    {depth enough : ℕ} {chars : List Char} {r : Json × List Char}
    (henough : min depth chars.length ≤ enough)
    (hread : value depth chars = some r) : value enough chars = some r := by
  induction depth generalizing chars enough r with
  | zero =>
      have hscalar : scalar (skipSpace chars) = some r := hread
      cases hskip : skipSpace chars with
      | nil => simp [hskip, scalar] at hscalar
      | cons c rest =>
          rw [hskip] at hscalar
          rw [value_eq_scalar hskip (scalar_head hscalar), hscalar]
  | succ depth ih =>
      have hlength := length_skipSpace_le chars
      rw [value] at hread
      cases hskip : skipSpace chars with
      | nil => simp [hskip] at hread
      | cons c rest =>
          rw [hskip, List.length_cons] at hlength
          obtain ⟨left, rfl⟩ := Nat.exists_eq_succ_of_ne_zero
            (by omega : enough ≠ 0)
          have hagree (inner : List Char) (s : Json × List Char)
              (hsize : inner.length ≤ rest.length)
              (hinner : value depth inner = some s) :
              value left inner = some s := ih (by omega) hinner
          rw [value]
          simp only [hskip] at hread ⊢
          split at hread
          next hc =>
            obtain ⟨⟨items, after⟩, hitems, rfl⟩ :=
              Option.map_eq_some_iff.mp hread
            rw [if_pos hc, bracketedItems_enough (value_sound depth) hagree
              le_rfl hitems]
            rfl
          next hc =>
          rw [if_neg hc]
          split at hread
          next hc =>
            obtain ⟨⟨entries, after⟩, hentries, rfl⟩ :=
              Option.map_eq_some_iff.mp hread
            rw [if_pos hc, bracketedItems_enough
              (member_sound (value_sound depth))
              (fun inner s hsize => member_enough hagree hsize) le_rfl hentries]
            rfl
          next hc => rw [if_neg hc, hread]

theorem readValue_of_value
    {depth : ℕ} {chars : List Char} {r : Json × List Char}
    (hread : value depth chars = some r) : readValue chars = some r :=
  value_enough (min_le_right _ _) hread

theorem readValue_sound : Sound readValue :=
  fun chars _ _ hread => value_sound chars.length _ _ _ hread

/-- Every bracket and every string literal of an accepted text has ended. -/
theorem parse_closed
    {chars : List Char} {v : Json} (hparse : parse chars = some v) :
    Closed chars := by
  obtain ⟨⟨read, rest⟩, hread, hend⟩ := Option.bind_eq_some_iff.mp hparse
  obtain ⟨front, hne, hchars, hstays⟩ := readValue_sound _ _ _ hread
  split at hend
  next hblank =>
    obtain ⟨space, hspace, hspaceStays⟩ := exists_skipSpace rest
    rw [hblank, List.append_nil] at hspace
    rw [hspace] at hchars
    refine ⟨by simp [hchars, hne], ?_⟩
    rw [hchars]
    exact ((hstays.append hspaceStays) 0).1
  next => simp at hend

end JsonParse
