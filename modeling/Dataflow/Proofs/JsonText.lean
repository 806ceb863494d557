/-
# Written values read back

A value is written in one of several styles, and whatever the style its text reads as the value
again (`Json.parse?_write`).  Between the two stand tokens: a written value splits into its
*spelling* (`Json.reads_write`), and its spelling parses to it (`Json.parseValue_spelling`).

Only a number depends on what follows it: a digit, a point or an exponent would make it another
number.  In a text nothing of the kind comes after a value (`Json.Closes`).
-/
import Dataflow.Json.Parse
import Dataflow.Json.Write

namespace Dataflow
namespace Json

/-! ## 1. What can be written -/

/-- A value without unreadable strings, and without numbers that are no integers. -/
inductive Legible : Json → Prop
  | null : Legible .null
  | bool (b : Bool) : Legible (.bool b)
  | int (n : Int) : Legible (.int n)
  | str (s : String) : Legible (.str s)
  | arr {items : List Json} : (∀ item ∈ items, Legible item) → Legible (.arr items)
  | obj {members : List (Option String × Json)} : (∀ m ∈ members, m.1.isSome = true) →
      (∀ m ∈ members, Legible m.2) → Legible (.obj members)

/-- A style that puts nothing but blanks between tokens. -/
structure Style.Airy (style : Style) : Prop where
  newline : ∀ depth, ∀ c ∈ (style.newline depth).toList, isBlank c = true
  separator : ∃ after, style.separator.toList = ':' :: after ∧ ∀ c ∈ after, isBlank c = true

theorem Style.compact_airy : Style.compact.Airy where
  newline := fun _ c hc => by simp [Style.compact] at hc
  separator := ⟨[], rfl, fun c hc => by cases hc⟩

theorem Style.pretty_airy : Style.pretty.Airy where
  newline := fun depth => by
    have hpush : ∀ n, ∀ c ∈ ("\n".pushn ' ' n).toList, isBlank c = true := by
      intro n
      induction n with
      | zero => exact List.all_eq_true.mp (by decide)
      | succ n ih =>
        intro c hc
        have hstep : "\n".pushn ' ' (n + 1) = ("\n".pushn ' ' n).push ' ' := rfl
        rw [hstep, String.toList_push, List.mem_append] at hc
        rcases hc with hc | hc
        · exact ih c hc
        · cases List.mem_singleton.mp hc
          decide
    exact hpush (2 * depth)
  separator := ⟨[' '], rfl, List.all_eq_true.mp (by decide)⟩

mutual

/-- The tokens of a value. -/
def spelling : Json → List Token
  | .null | .real | .unreadable => [.null]
  | .bool b => [.bool b]
  | .int n => [.int n]
  | .str s => [.str (some s)]
  | .arr [] => [.openBracket, .closeBracket]
  | .arr (item :: items) =>
    .openBracket :: (spelling item ++ (spellingItems items ++ [.closeBracket]))
  | .obj [] => [.openBrace, .closeBrace]
  | .obj ((key, value) :: members) =>
    .openBrace :: .str key :: .colon ::
      (spelling value ++ (spellingMembers members ++ [.closeBrace]))

/-- The tokens of the items after the first. -/
def spellingItems : List Json → List Token
  | [] => []
  | item :: items => .comma :: (spelling item ++ spellingItems items)

/-- The tokens of the members after the first. -/
def spellingMembers : List (Option String × Json) → List Token
  | [] => []
  | (key, value) :: members =>
    .comma :: .str key :: .colon :: (spelling value ++ spellingMembers members)

end

/-! ## 2. Texts and their tokens -/

/-- True of the characters that go on with a number. -/
def extendsNumber (c : Char) : Bool := c.isDigit || c == '.' || c == 'e' || c == 'E'

/-- What follows does not go on with a number. -/
def Closes (rest : List Char) : Prop := ∀ c ∈ rest.head?, extendsNumber c = false

/-- `Reads text ts`: before whatever closes it, the text splits into the tokens. -/
def Reads (text : List Char) (ts : List Token) : Prop :=
  ∀ steps rest more, Closes rest → scanTokens steps rest = some more →
    scanTokens (steps + text.length) (text ++ rest) = some (ts ++ more)

theorem closes_nil : Closes [] := by
  intro c hc
  cases hc

theorem closes_cons {c : Char} (hc : extendsNumber c = false) (rest : List Char) :
    Closes (c :: rest) := by
  intro d hd
  cases hd
  exact hc

theorem Closes.append {text rest : List Char} (h : Closes text) (hrest : Closes rest) :
    Closes (text ++ rest) := by
  cases text with
  | nil => exact hrest
  | cons c text => exact closes_cons (h c rfl) _

theorem not_extendsNumber_of_isBlank {c : Char} (hc : isBlank c = true) :
    extendsNumber c = false := by
  simp only [isBlank, Bool.or_eq_true, beq_iff_eq] at hc
  rcases hc with ((rfl | rfl) | rfl) | rfl <;> decide

theorem closes_blanks {blanks : List Char} (h : ∀ c ∈ blanks, isBlank c = true) :
    Closes blanks := by
  cases blanks with
  | nil => exact closes_nil
  | cons c blanks => exact closes_cons (not_extendsNumber_of_isBlank (h c List.mem_cons_self)) _

/-- More steps than needed change nothing. -/
theorem scanTokens_mono : ∀ {steps steps' : Nat} {text : List Char} {ts : List Token},
    scanTokens steps text = some ts → steps ≤ steps' → scanTokens steps' text = some ts
  | _, _, [], _, h, _ => by simpa [scanTokens] using h
  | 0, _, _ :: _, _, h, _ => by cases h
  | steps + 1, 0, _ :: _, _, _, hle => by omega
  | steps + 1, steps' + 1, c :: cs, ts, h, hle => by
    rw [scanTokens] at h ⊢
    split at h
    · rename_i hblank
      rw [if_pos hblank]
      exact scanTokens_mono h (Nat.le_of_succ_le_succ hle)
    · rename_i hblank
      rw [if_neg hblank]
      obtain ⟨⟨token, rest⟩, htoken, h⟩ := Option.bind_eq_some_iff.mp h
      obtain ⟨more, hmore, h⟩ := Option.bind_eq_some_iff.mp h
      have hmore' := scanTokens_mono hmore (Nat.le_of_succ_le_succ hle)
      simp [htoken, hmore', ← h]

namespace Reads

theorem nil : Reads [] [] := fun _ _ _ _ h => h

theorem append {text text' : List Char} {ts ts' : List Token} (h : Reads text ts)
    (h' : Reads text' ts') (hclose : Closes text') : Reads (text ++ text') (ts ++ ts') := by
  intro steps rest more hrest hmore
  have hlater := h' steps rest more hrest hmore
  have hall := h _ _ _ (hclose.append hrest) hlater
  rw [List.append_assoc, List.append_assoc, List.length_append, Nat.add_comm text.length,
    ← Nat.add_assoc]
  exact hall

/-- Blanks have no tokens. -/
theorem blanks {text : List Char} {ts : List Token} (h : Reads text ts) : ∀ {blanks : List Char},
    (∀ c ∈ blanks, isBlank c = true) → Reads (blanks ++ text) ts
  | [], _ => h
  | c :: blanks, hblanks => by
    obtain ⟨hc, hblanks⟩ := List.forall_mem_cons.mp hblanks
    intro steps rest more hrest hmore
    have htail := h.blanks hblanks steps rest more hrest hmore
    rw [List.cons_append, List.length_cons, ← Nat.add_assoc, List.cons_append, scanTokens,
      if_pos hc]
    exact htail

/-- A text that is read as one token. -/
theorem token {c : Char} {cs : List Char} {t : Token} (hc : isBlank c = false)
    (h : ∀ rest, Closes rest → scanToken (c :: cs ++ rest) = some (t, rest)) :
    Reads (c :: cs) [t] := by
  intro steps rest more hrest hmore
  have hlater := scanTokens_mono hmore (Nat.le_add_right steps cs.length)
  have htoken := h rest hrest
  rw [List.cons_append] at htoken ⊢
  rw [List.length_cons, ← Nat.add_assoc, scanTokens, hc]
  simp [htoken, hlater]

/-- A mark in front of a text: it is read whatever follows. -/
theorem mark {c : Char} {t : Token} {text : List Char} {ts : List Token} (hc : isBlank c = false)
    (hmark : ∀ rest, scanToken (c :: rest) = some (t, rest)) (h : Reads text ts) :
    Reads (c :: text) (t :: ts) := by
  intro steps rest more hrest hmore
  have hlater := h steps rest more hrest hmore
  rw [List.cons_append, List.length_cons, ← Nat.add_assoc, scanTokens, hc, hmark]
  simp [hlater]

/-- So a whole text has these tokens. -/
theorem tokens_eq {text : List Char} {ts : List Token} (h : Reads text ts) :
    tokens text = some ts := by
  have hall := h 0 [] [] closes_nil rfl
  simpa [tokens] using hall

end Reads

/-! ## 3. Numbers -/

theorem decimal_toDigits (n : Nat) : decimal (Nat.toDigits 10 n) = n := by
  have h := Nat.ofDigitChars_ten_toDigits (n := n)
  rwa [Nat.ofDigitChars_eq_foldl] at h

/-- A number other than zero starts with a digit other than zero. -/
theorem head_toDigits_ne_zero (n : Nat) (hn : n ≠ 0) :
    ∀ c ∈ (Nat.toDigits 10 n).head?, c ≠ '0' := by
  induction n using Nat.strongRecOn with
  | ind n ih =>
    rw [Nat.toDigits_eq_if (by decide)]
    split
    · rename_i hlt
      intro c hc
      cases hc
      have hall : ∀ d < 10, d ≠ 0 → Nat.digitChar d ≠ '0' := by decide
      exact hall n hlt hn
    · rename_i hge
      have hhead := ih (n / 10) (by omega) (by omega)
      cases hd : Nat.toDigits 10 (n / 10) with
      | nil => exact absurd hd Nat.toDigits_ne_nil
      | cons c cs =>
        rw [hd] at hhead
        exact hhead

theorem takeWhile_isDigit {digits rest : List Char} (hdigits : ∀ c ∈ digits, c.isDigit = true)
    (hrest : Closes rest) : (digits ++ rest).takeWhile Char.isDigit = digits
      ∧ (digits ++ rest).dropWhile Char.isDigit = rest := by
  rw [List.takeWhile_append_of_pos hdigits, List.dropWhile_append_of_pos hdigits]
  cases rest with
  | nil => simp
  | cons c rest =>
    have hc : c.isDigit = false := by
      have := hrest c rfl
      simp only [extendsNumber, Bool.or_eq_false_iff] at this
      exact this.1.1.1
    simp [hc]

theorem scanDigits_toDigits (n : Nat) {rest : List Char} (hrest : Closes rest) :
    scanDigits (Nat.toDigits 10 n ++ rest) = some (n, rest) := by
  by_cases hn : n = 0
  · subst hn
    rfl
  · have hdigits : ∀ c ∈ Nat.toDigits 10 n, c.isDigit = true := fun c hc =>
      Nat.isDigit_of_mem_toDigits (by decide) (by decide) hc
    have hhead := head_toDigits_ne_zero n hn
    have hvalue := decimal_toDigits n
    cases hd : Nat.toDigits 10 n with
    | nil => exact absurd hd Nat.toDigits_ne_nil
    | cons c cs =>
      rw [hd] at hdigits hhead hvalue
      obtain ⟨hc, hcs⟩ := List.forall_mem_cons.mp hdigits
      obtain ⟨htake, hdrop⟩ := takeWhile_isDigit hcs hrest
      rw [List.cons_append, scanDigits.eq_2 _ _ (hhead c rfl), if_pos hc, htake, hdrop, hvalue]

theorem skipFraction_closes {rest : List Char} (hrest : Closes rest) :
    skipFraction rest = some (false, rest) := by
  unfold skipFraction
  split
  · exact absurd (hrest '.' rfl) (by decide)
  · rfl

theorem skipExponent_closes {rest : List Char} (hrest : Closes rest) :
    skipExponent rest = some (false, rest) := by
  unfold skipExponent
  split
  · exact absurd (hrest 'e' rfl) (by decide)
  · exact absurd (hrest 'E' rfl) (by decide)
  · rfl

theorem scanNumber_toDigits (negative : Bool) (n : Nat) (hn : negative = true → n ≠ 0)
    {rest : List Char} (hrest : Closes rest) : scanNumber negative (Nat.toDigits 10 n ++ rest)
      = some (.int (if negative then -n else n), rest) := by
  simp only [scanNumber, scanDigits_toDigits n hrest, skipFraction_closes hrest,
    skipExponent_closes hrest, Option.bind_eq_bind, Option.bind_some, Bool.false_or]
  cases negative with
  | false => rfl
  | true => simp [hn rfl]

/-- A digit starts a number. -/
theorem scanToken_of_isDigit {c : Char} (hc : c.isDigit = true) (cs : List Char) :
    scanToken (c :: cs) = scanNumber false (c :: cs) := by
  unfold scanToken
  split
  all_goals first
    | rfl
    | (rename_i heq; cases heq; exact absurd hc (by decide))

theorem reads_toString (n : Int) : Reads (toString n).toList [.int n] := by
  cases n with
  | ofNat n =>
    have htext : (toString (Int.ofNat n)).toList = Nat.toDigits 10 n := Nat.toList_repr
    rw [htext]
    have hdigits : ∀ c ∈ Nat.toDigits 10 n, c.isDigit = true := fun c hc =>
      Nat.isDigit_of_mem_toDigits (by decide) (by decide) hc
    have hscan := fun rest hrest =>
      @scanNumber_toDigits false n (fun h => by cases h) rest hrest
    cases hd : Nat.toDigits 10 n with
    | nil => exact absurd hd Nat.toDigits_ne_nil
    | cons c cs =>
      rw [hd] at hdigits hscan
      have hc := hdigits c List.mem_cons_self
      refine Reads.token ?_ fun rest hrest => ?_
      · cases hb : isBlank c with
        | false => rfl
        | true =>
          have := not_extendsNumber_of_isBlank hb
          simp [extendsNumber, hc] at this
      · rw [List.cons_append, scanToken_of_isDigit hc, ← List.cons_append, hscan rest hrest]
        rfl
  | negSucc n =>
    have htext : (toString (Int.negSucc n)).toList = '-' :: Nat.toDigits 10 (n + 1) := by
      have : toString (Int.negSucc n) = "-" ++ (n + 1).repr := rfl
      rw [this, String.toList_append, Nat.toList_repr]
      rfl
    rw [htext]
    refine Reads.token (by decide) fun rest hrest => ?_
    have hscan := scanNumber_toDigits true (n + 1) (fun _ => Nat.succ_ne_zero n) hrest
    exact hscan

/-! ## 4. Strings -/

theorem hexDigit?_hexDigit : ∀ n < 16, hexDigit? (hexDigit n) = some n := by decide

theorem spell_unit {n : Nat} (hn : n < 0xD800) (pieces : List Piece) :
    spell (.unit n :: pieces) = (spell pieces).map (Char.ofNat n :: ·) := by
  have hhigh : isHighSurrogate n = false := by simp [isHighSurrogate]; omega
  have hlow : isLowSurrogate n = false := by simp [isLowSurrogate]; omega
  cases pieces with
  | nil => simp [spell, hhigh, hlow]
  | cons p pieces =>
    cases p with
    | char c => simp [spell, hhigh, hlow]
    | unit low => simp [spell, hhigh, hlow]

/-- **A written character is one part of the string, and spells the character.** -/
theorem scanString_escape (c : Char) : ∃ piece,
    (∀ cs, scanString (escape c ++ cs)
      = (scanString cs).bind fun r => some (piece :: r.1, r.2))
    ∧ ∀ pieces, spell (piece :: pieces) = (spell pieces).map (c :: ·) := by
  unfold escape
  split
  case h_8 hquote hslash _ _ _ _ _ =>
    split
    · -- Four hexadecimal digits, of which the first two are zero.
      rename_i hlt
      have hunit : hexUnit? '0' '0' (hexDigit (c.toNat / 16)) (hexDigit (c.toNat % 16))
          = some c.toNat := by
        have hzero : hexDigit? '0' = some 0 := by decide
        simp only [hexUnit?, hzero, hexDigit?_hexDigit (c.toNat / 16) (by omega),
          hexDigit?_hexDigit (c.toNat % 16) (by omega), Option.bind_eq_bind, Option.bind_some,
          Option.pure_def, Option.some.injEq]
        omega
      refine ⟨.unit c.toNat, fun cs => ?_, fun pieces => ?_⟩
      · simp [scanString, hunit]
      · rw [spell_unit (by omega), Char.ofNat_toNat]
    · rename_i hge
      refine ⟨.char c, fun cs => ?_, fun pieces => rfl⟩
      have hplain : ¬ (c.toNat < 0x20 ∨ c = '\\') := fun h => h.elim hge hslash
      rw [List.cons_append, List.nil_append, scanString.eq_4 c cs hquote (fun _ _ _ _ _ h _ =>
        hslash h) fun _ _ h _ => hslash h, if_neg hplain]
      rfl
  all_goals exact ⟨.char _, fun cs => by simp [scanString, escape?], fun pieces => rfl⟩

theorem scanString_written (cs rest : List Char) : ∃ pieces,
    scanString (cs.flatMap escape ++ '"' :: rest) = some (pieces, rest)
      ∧ spell pieces = some cs := by
  induction cs with
  | nil => exact ⟨[], rfl, rfl⟩
  | cons c cs ih =>
    obtain ⟨pieces, hscan, hspell⟩ := ih
    obtain ⟨piece, hstep, hpiece⟩ := scanString_escape c
    refine ⟨piece :: pieces, ?_, ?_⟩
    · rw [List.flatMap_cons, List.append_assoc, hstep, hscan]
      rfl
    · rw [hpiece, hspell]
      rfl

theorem toList_quote (s : String) :
    (quote s).toList = '"' :: (s.toList.flatMap escape ++ ['"']) := by
  simp [quote]

theorem reads_quote (s : String) : Reads (quote s).toList [.str (some s)] := by
  rw [toList_quote]
  refine Reads.token (by decide) fun rest _ => ?_
  obtain ⟨pieces, hscan, hspell⟩ := scanString_written s.toList rest
  have htext : '"' :: (s.toList.flatMap escape ++ ['"']) ++ rest
      = '"' :: (s.toList.flatMap escape ++ '"' :: rest) := by simp
  rw [htext, scanToken, hscan]
  simp [hspell]

/-! ## 5. Values -/

section Written

variable {style : Style}

theorem reads_separator (hs : style.Airy) {text : List Char} {ts : List Token}
    (h : Reads text ts) :
    Closes (style.separator.toList ++ text) ∧
      Reads (style.separator.toList ++ text) (.colon :: ts) := by
  obtain ⟨after, hsep, hafter⟩ := hs.separator
  rw [hsep]
  exact ⟨closes_cons (by decide) _, .mark (by decide) (fun _ => rfl) (h.blanks hafter)⟩

/-- A line break before a closing mark. -/
theorem reads_closing (hs : style.Airy) (depth : Nat) {c : Char} {t : Token}
    (hc : extendsNumber c = false) (hblank : isBlank c = false)
    (hmark : ∀ rest, scanToken (c :: rest) = some (t, rest)) :
    Closes ((style.newline depth).toList ++ [c]) ∧
      Reads ((style.newline depth).toList ++ [c]) [t] :=
  ⟨(closes_blanks (hs.newline depth)).append (closes_cons hc _),
    (Reads.mark hblank hmark .nil).blanks (hs.newline depth)⟩

theorem reads_writeItems (hs : style.Airy) (depth : Nat) {items : List Json}
    (h : ∀ item ∈ items, ∀ depth, Reads (write style depth item).toList (spelling item)) :
    Closes (writeItems style depth items).toList ∧
      Reads (writeItems style depth items).toList (spellingItems items) := by
  induction items with
  | nil => exact ⟨closes_nil, .nil⟩
  | cons item items ih =>
    obtain ⟨hitem, hitems⟩ := List.forall_mem_cons.mp h
    obtain ⟨hclose, hrest⟩ := ih hitems
    have htext : (writeItems style depth (item :: items)).toList
        = ',' :: ((style.newline depth).toList ++ ((write style depth item).toList
          ++ (writeItems style depth items).toList)) := by
      simp [writeItems]
    rw [htext, spellingItems]
    exact ⟨closes_cons (by decide) _, .mark (by decide) (fun _ => rfl)
      (((hitem depth).append hrest hclose).blanks (hs.newline depth))⟩

/-- A key with its value, before more. -/
theorem reads_member (hs : style.Airy) (depth : Nat) (key : String) {text more : List Char}
    {ts ts' : List Token} (h : Reads text ts) (hmore : Reads more ts') (hclose : Closes more) :
    Reads ((style.newline depth).toList ++ ((quote key).toList ++ (style.separator.toList
      ++ (text ++ more)))) (.str (some key) :: .colon :: (ts ++ ts')) := by
  obtain ⟨hclose', hvalue⟩ := reads_separator hs (h.append hmore hclose)
  exact ((reads_quote key).append hvalue hclose').blanks (hs.newline depth)

theorem reads_writeMembers (hs : style.Airy) (depth : Nat) {members : List (Option String × Json)}
    (hkeys : ∀ m ∈ members, m.1.isSome = true)
    (h : ∀ m ∈ members, ∀ depth, Reads (write style depth m.2).toList (spelling m.2)) :
    Closes (writeMembers style depth members).toList ∧
      Reads (writeMembers style depth members).toList (spellingMembers members) := by
  induction members with
  | nil => exact ⟨closes_nil, .nil⟩
  | cons m members ih =>
    obtain ⟨hkey, hkeys⟩ := List.forall_mem_cons.mp hkeys
    obtain ⟨hvalue, hvalues⟩ := List.forall_mem_cons.mp h
    obtain ⟨hclose, hrest⟩ := ih hkeys hvalues
    obtain ⟨key?, value⟩ := m
    obtain ⟨key, rfl⟩ := Option.isSome_iff_exists.mp hkey
    have htext : (writeMembers style depth ((some key, value) :: members)).toList
        = ',' :: ((style.newline depth).toList ++ ((quote key).toList ++ (style.separator.toList
          ++ ((write style depth value).toList
            ++ (writeMembers style depth members).toList)))) := by
      simp [writeMembers]
    rw [htext, spellingMembers]
    exact ⟨closes_cons (by decide) _, .mark (by decide) (fun _ => rfl)
      (reads_member hs depth key (hvalue depth) hrest hclose)⟩

theorem reads_writeArray (hs : style.Airy) (depth : Nat) {items : List Json}
    (h : ∀ item ∈ items, ∀ depth, Reads (write style depth item).toList (spelling item)) :
    Reads (write style depth (.arr items)).toList (spelling (.arr items)) := by
  cases items with
  | nil =>
    have htext : (write style depth (.arr [])).toList = ['[', ']'] := by simp [write]
    rw [htext]
    exact .mark (by decide) (fun _ => rfl) (.mark (by decide) (fun _ => rfl) .nil)
  | cons item items =>
    obtain ⟨hitem, hitems⟩ := List.forall_mem_cons.mp h
    obtain ⟨hclose, hend⟩ := reads_closing hs depth (c := ']') (t := .closeBracket) (by decide)
      (by decide) fun _ => rfl
    obtain ⟨hclose', hrest⟩ := reads_writeItems hs (depth + 1) hitems
    have htext : (write style depth (.arr (item :: items))).toList
        = '[' :: ((style.newline (depth + 1)).toList ++ ((write style (depth + 1) item).toList
          ++ ((writeItems style (depth + 1) items).toList
            ++ ((style.newline depth).toList ++ [']'])))) := by
      simp [write]
    rw [htext, spelling]
    refine .mark (by decide) (fun _ => rfl) (Reads.blanks ?_ (hs.newline (depth + 1)))
    exact (hitem (depth + 1)).append (hrest.append hend hclose) (hclose'.append hclose)

theorem reads_writeObject (hs : style.Airy) (depth : Nat) {members : List (Option String × Json)}
    (hkeys : ∀ m ∈ members, m.1.isSome = true)
    (h : ∀ m ∈ members, ∀ depth, Reads (write style depth m.2).toList (spelling m.2)) :
    Reads (write style depth (.obj members)).toList (spelling (.obj members)) := by
  cases members with
  | nil =>
    have htext : (write style depth (.obj [])).toList = ['\x7b', '\x7d'] := by simp [write]
    rw [htext]
    exact .mark (by decide) (fun _ => rfl) (.mark (by decide) (fun _ => rfl) .nil)
  | cons m members =>
    obtain ⟨key?, value⟩ := m
    obtain ⟨hkey, hrestKeys⟩ := List.forall_mem_cons.mp hkeys
    obtain ⟨hvalue, hvalues⟩ := List.forall_mem_cons.mp h
    obtain ⟨key, rfl⟩ := Option.isSome_iff_exists.mp hkey
    obtain ⟨hclose, hend⟩ := reads_closing hs depth (c := '\x7d') (t := .closeBrace) (by decide)
      (by decide) fun _ => rfl
    obtain ⟨hclose', hrest⟩ := reads_writeMembers hs (depth + 1) hrestKeys hvalues
    have htext : (write style depth (.obj ((some key, value) :: members))).toList
        = '\x7b' :: ((style.newline (depth + 1)).toList ++ ((quote key).toList
          ++ (style.separator.toList ++ ((write style (depth + 1) value).toList
            ++ ((writeMembers style (depth + 1) members).toList
              ++ ((style.newline depth).toList ++ ['\x7d'])))))) := by
      simp [write]
    rw [htext, spelling]
    exact .mark (by decide) (fun _ => rfl) (reads_member hs (depth + 1) key (hvalue (depth + 1))
      (hrest.append hend hclose) (hclose'.append hclose))

/-- **A written value splits into its spelling.** -/
theorem reads_write (hs : style.Airy) {j : Json} (hj : j.Legible) :
    ∀ depth, Reads (write style depth j).toList (spelling j) := by
  induction hj with
  | null =>
    intro depth
    have htext : (write style depth .null).toList = ['n', 'u', 'l', 'l'] := by simp [write]
    rw [htext]
    exact .token (by decide) fun _ _ => rfl
  | bool b =>
    intro depth
    cases b with
    | false =>
      have htext : (write style depth (.bool false)).toList = ['f', 'a', 'l', 's', 'e'] := by
        simp [write]
      rw [htext]
      exact .token (by decide) fun _ _ => rfl
    | true =>
      have htext : (write style depth (.bool true)).toList = ['t', 'r', 'u', 'e'] := by
        simp [write]
      rw [htext]
      exact .token (by decide) fun _ _ => rfl
  | int n =>
    intro depth
    rw [write, spelling]
    exact reads_toString n
  | str s =>
    intro depth
    rw [write, spelling]
    exact reads_quote s
  | arr _ ih => exact fun depth => reads_writeArray hs depth ih
  | obj hkeys _ ih => exact fun depth => reads_writeObject hs depth hkeys ih

end Written

/-! ## 6. Tokens and their values -/

/-- No spelling starts with a closing mark. -/
theorem spelling_cons (j : Json) :
    ∃ t ts, spelling j = t :: ts ∧ t ≠ .closeBracket ∧ t ≠ .closeBrace := by
  fun_cases spelling j <;> exact ⟨_, _, rfl, by simp, by simp⟩

theorem parseItems_spelling {items : List Json} {item : Json} (rest : List Token)
    (h : ∀ i ∈ item :: items, ∀ depth rest, (spelling i).length ≤ depth →
      parseValue depth (spelling i ++ rest) = some (i, rest)) :
    ∀ depth, (spelling item).length + (spellingItems items).length < depth →
      parseItems depth (spelling item ++ (spellingItems items ++ .closeBracket :: rest))
        = some (item :: items, rest) := by
  induction items generalizing item with
  | nil =>
    intro depth hdepth
    obtain ⟨depth, rfl⟩ := Nat.exists_eq_succ_of_ne_zero (Nat.ne_zero_of_lt hdepth)
    have hitem := h item List.mem_cons_self depth (.closeBracket :: rest)
      (by simp [spellingItems] at hdepth; omega)
    simp [spellingItems, parseItems, hitem]
  | cons next items ih =>
    intro depth hdepth
    obtain ⟨depth, rfl⟩ := Nat.exists_eq_succ_of_ne_zero (Nat.ne_zero_of_lt hdepth)
    rw [spellingItems, List.length_cons, List.length_append] at hdepth
    obtain ⟨t, ts, hfirst, -⟩ := spelling_cons item
    have hpos : 0 < (spelling item).length := by simp [hfirst]
    have hitem := h item List.mem_cons_self depth
      (.comma :: (spelling next ++ (spellingItems items ++ .closeBracket :: rest))) (by omega)
    have hnext := ih (fun i hi => h i (List.mem_cons_of_mem item hi)) depth (by omega)
    simp [spellingItems, parseItems, hitem, hnext]

theorem parseMembers_spelling {members : List (Option String × Json)} {key : Option String}
    {value : Json} (rest : List Token)
    (h : ∀ m ∈ (key, value) :: members, ∀ depth rest, (spelling m.2).length ≤ depth →
      parseValue depth (spelling m.2 ++ rest) = some (m.2, rest)) :
    ∀ depth, (spelling value).length + (spellingMembers members).length + 2 < depth →
      parseMembers depth (.str key :: .colon :: (spelling value ++ (spellingMembers members
        ++ .closeBrace :: rest))) = some ((key, value) :: members, rest) := by
  induction members generalizing key value with
  | nil =>
    intro depth hdepth
    obtain ⟨depth, rfl⟩ := Nat.exists_eq_succ_of_ne_zero (Nat.ne_zero_of_lt hdepth)
    have hvalue := h _ List.mem_cons_self depth (.closeBrace :: rest)
      (by simp only; omega)
    simp [spellingMembers, parseMembers, hvalue]
  | cons m members ih =>
    intro depth hdepth
    obtain ⟨depth, rfl⟩ := Nat.exists_eq_succ_of_ne_zero (Nat.ne_zero_of_lt hdepth)
    obtain ⟨key', value'⟩ := m
    simp only [spellingMembers, List.length_cons, List.length_append] at hdepth
    have hvalue := h _ List.mem_cons_self depth (.comma :: .str key' :: .colon ::
      (spelling value' ++ (spellingMembers members ++ .closeBrace :: rest))) (by simp only; omega)
    have hnext := ih (fun m hm => h m (List.mem_cons_of_mem _ hm)) depth (by omega)
    simp [spellingMembers, parseMembers, hvalue, hnext]

/-- **The spelling of a value parses to it**, before whatever follows. -/
theorem parseValue_spelling {j : Json} (hj : j.Legible) : ∀ depth rest,
    (spelling j).length ≤ depth → parseValue depth (spelling j ++ rest) = some (j, rest) := by
  have hstart : ∀ {j : Json} {depth : Nat}, (spelling j).length ≤ depth → ∃ d, depth = d + 1 := by
    intro j depth hdepth
    obtain ⟨t, ts, hfirst, -⟩ := spelling_cons j
    rw [hfirst, List.length_cons] at hdepth
    exact ⟨depth - 1, by omega⟩
  induction hj with
  | @arr items _ ih =>
    intro depth rest hdepth
    obtain ⟨depth, rfl⟩ := hstart hdepth
    cases items with
    | nil => rfl
    | cons item items =>
      obtain ⟨t, ts, hfirst, hopen, -⟩ := spelling_cons item
      simp only [spelling, List.length_cons, List.length_append, List.length_nil] at hdepth
      have hitems := parseItems_spelling rest ih depth (by omega)
      simp only [hfirst, List.cons_append] at hitems
      simp [spelling, hfirst, parseValue, hopen, hitems]
  | @obj members _ _ ih =>
    intro depth rest hdepth
    obtain ⟨depth, rfl⟩ := hstart hdepth
    cases members with
    | nil => rfl
    | cons m members =>
      obtain ⟨key, value⟩ := m
      simp only [spelling, List.length_cons, List.length_append, List.length_nil] at hdepth
      have hmembers := parseMembers_spelling rest ih depth (by omega)
      simp [spelling, parseValue, hmembers]
  | _ =>
    intro depth rest hdepth
    obtain ⟨depth, rfl⟩ := hstart hdepth
    rfl

/-- **A written value reads back**, in every style that puts nothing but blanks between tokens. -/
theorem parse?_write {style : Style} (hs : style.Airy) {j : Json} (hj : j.Legible) (depth : Nat) :
    parse? (write style depth j) = some j := by
  have hvalue := parseValue_spelling hj (spelling j).length [] (Nat.le_refl _)
  rw [List.append_nil] at hvalue
  simp [parse?, (reads_write hs hj depth).tokens_eq, ofTokens?, hvalue]

end Json
end Dataflow
