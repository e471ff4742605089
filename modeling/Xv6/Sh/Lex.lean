import Xv6.Sh.Parse

/-!
# Sh — the tokens of a line

`gettoken` and `peek` see a line as a sequence of tokens: `gettoken` takes the first one off, and
`peek` looks at the character that it begins with.  `Tokens line es i ts` says that `ts` is what is
left of the line from the cursor `i` on.

* `Tokens.peek`, `Tokens.gettoken`: the two functions in terms of the tokens.
* `tokens_spec`: every line has a token sequence, `tokens line`.
-/

namespace Xv6.Sh

/-! ### Tokens -/

inductive Tok (ω : Type) where
  | word (w : ω)
  | bar
  | lpar
  | rpar
  | semi
  | amp
  | lt
  | gt
  /-- `>>` -/
  | gtgt
  deriving DecidableEq

variable {ω : Type}

/-- What `gettoken` returns for it. -/
def Tok.code : Tok ω → UInt8
  | .word _ => ch 'a'
  | .bar => ch '|'
  | .lpar => ch '('
  | .rpar => ch ')'
  | .semi => ch ';'
  | .amp => ch '&'
  | .lt => ch '<'
  | .gt => ch '>'
  | .gtgt => ch '+'

/-- The symbol that it begins with. -/
def Tok.sym : Tok ω → Option Char
  | .word _ => none
  | .bar => some '|'
  | .lpar => some '('
  | .rpar => some ')'
  | .semi => some ';'
  | .amp => some '&'
  | .lt => some '<'
  | .gt => some '>'
  | .gtgt => some '>'

/-- Whether the next token begins with one of the symbols. -/
def starts (ts : List (Tok ω)) (toks : List Char) : Bool :=
  match ts with
  | [] => false
  | t :: _ => t.sym.any toks.contains

/-- The token that `gettoken` has found, if any. -/
def Token.tok (t : Token) : Option (Tok Slice) :=
  if t.ret = 0 then none
  else if t.ret = ch '|' then some .bar
  else if t.ret = ch '(' then some .lpar
  else if t.ret = ch ')' then some .rpar
  else if t.ret = ch ';' then some .semi
  else if t.ret = ch '&' then some .amp
  else if t.ret = ch '<' then some .lt
  else if t.ret = ch '>' then some .gt
  else if t.ret = ch '+' then some .gtgt
  else some (.word (t.q, t.eq))

/-- The tokens from the cursor on, for at most the given number of them. -/
def tokensFrom (line : List UInt8) (es : Nat) : Nat → Nat → List (Tok Slice)
  | 0, _ => []
  | k + 1, i =>
    match (gettoken line es i).tok with
    | none => []
    | some t => t :: tokensFrom line es k (gettoken line es i).next

/-- The token sequence of a line. -/
def tokens (line : List UInt8) : List (Tok Slice) :=
  tokensFrom line (strlen line) (strlen line + 1) 0

/-- What is left of the line at a cursor. -/
inductive Tokens (line : List UInt8) (es : Nat) : Nat → List (Tok Slice) → Prop where
  | done {i : Nat} (hi : i ≤ es) (h : (gettoken line es i).tok = none) : Tokens line es i []
  | more {i : Nat} {t : Tok Slice} {ts : List (Tok Slice)} (hi : i ≤ es)
      (h : (gettoken line es i).tok = some t) (hs : Tokens line es (gettoken line es i).next ts) :
      Tokens line es i (t :: ts)

/-! ### Scanning -/

variable {line : List UInt8} {es i s : Nat}

variable {k : Nat} {p : UInt8 → Bool}

theorem advance_spec (hk : es ≤ s + k) (hs : s ≤ es) :
    s ≤ advance p line es k s ∧ advance p line es k s ≤ es ∧
      (∀ j, s ≤ j → j < advance p line es k s → p (char line j) = true) ∧
      (advance p line es k s < es → p (char line (advance p line es k s)) = false) := by
  induction k generalizing s with
  | zero =>
    rw [advance]
    exact ⟨Nat.le_refl s, hs, fun j hj hlt => absurd hlt (Nat.not_lt.mpr hj), fun h => by omega⟩
  | succ k ih =>
    rw [advance]
    split
    · rename_i hc
      obtain ⟨hlt, hp⟩ : s < es ∧ p (char line s) = true := by simpa using hc
      obtain ⟨h₁, h₂, h₃, h₄⟩ := ih (s := s + 1) (by omega) hlt
      refine ⟨by omega, h₂, fun j hj hjlt => ?_, h₄⟩
      rcases Nat.eq_or_lt_of_le hj with rfl | hj
      · exact hp
      · exact h₃ j hj hjlt
    · rename_i hc
      refine ⟨Nat.le_refl s, hs, fun j hj hlt => absurd hlt (Nat.not_lt.mpr hj), fun h => ?_⟩
      simpa [h] using hc

/-- A scan that stops at once. -/
theorem advance_self (h : s < es → p (char line s) = false) : advance p line es k s = s := by
  cases k with
  | zero => rfl
  | succ k =>
    rw [advance, if_neg]
    intro hc
    obtain ⟨hlt, hp⟩ : s < es ∧ p (char line s) = true := by simpa using hc
    rw [h hlt] at hp
    cases hp

/-- A scan is determined by where it stops. -/
theorem advance_eq {e : Nat} (hk : es ≤ s + k) (hs : s ≤ e) (he : e ≤ es)
    (hall : ∀ j, s ≤ j → j < e → p (char line j) = true)
    (hstop : e < es → p (char line e) = false) : advance p line es k s = e := by
  obtain ⟨h₁, h₂, h₃, h₄⟩ : s ≤ advance p line es k s ∧ _ ∧ _ ∧ _ :=
    advance_spec hk (Nat.le_trans hs he)
  rcases Nat.lt_trichotomy (advance p line es k s) e with h | h | h
  · have := hall _ h₁ h
    rw [h₄ (by omega)] at this
    cases this
  · exact h
  · have := h₃ e hs h
    rw [hstop (by omega)] at this
    cases this

theorem skip_spec (line : List UInt8) (hs : s ≤ es) :
    s ≤ skip line es s ∧ skip line es s ≤ es ∧
      (∀ j, s ≤ j → j < skip line es s → strchr whitespace (char line j) = true) ∧
      (skip line es s < es → strchr whitespace (char line (skip line es s)) = false) :=
  advance_spec (Nat.le_add_left ..) hs

theorem skip_skip (hs : s ≤ es) : skip line es (skip line es s) = skip line es s :=
  advance_self (skip_spec line hs).2.2.2

theorem gettoken_skip (hs : s ≤ es) : gettoken line es (skip line es s) = gettoken line es s := by
  simp only [gettoken, skip_skip hs]

theorem wordEnd_scan (line : List UInt8) (hs : s ≤ es) :
    s ≤ wordEnd line es s ∧ wordEnd line es s ≤ es ∧
      (∀ j, s ≤ j → j < wordEnd line es s →
        (!strchr whitespace (char line j) && !strchr symbols (char line j)) = true) ∧
      (wordEnd line es s < es → (!strchr whitespace (char line (wordEnd line es s)) &&
        !strchr symbols (char line (wordEnd line es s))) = false) :=
  advance_spec (Nat.le_add_left ..) hs

/-- A word has at least one character. -/
theorem wordEnd_spec (hs : s < es) (hws : strchr whitespace (char line s) = false)
    (hsym : strchr symbols (char line s) = false) :
    s < wordEnd line es s ∧ wordEnd line es s ≤ es := by
  obtain ⟨h₁, h₂, -, h₄⟩ := wordEnd_scan line (Nat.le_of_lt hs)
  refine ⟨Nat.lt_of_le_of_ne h₁ fun e => ?_, h₂⟩
  rw [← e, hws, hsym] at h₄
  cases h₄ hs

/-! ### Lines -/

/-- `es` is the end of the line. -/
structure Ends (line : List UInt8) (es : Nat) : Prop where
  inner : ∀ j, j < es → char line j ≠ 0
  last : char line es = 0

theorem ends_strlen (line : List UInt8) : Ends line (strlen line) := by
  induction line with
  | nil => exact ⟨fun j hj => absurd hj (Nat.not_lt_zero j), rfl⟩
  | cons c line ih =>
    by_cases hc : c = 0
    · have he : strlen (c :: line) = 0 := by simp [strlen, hc]
      rw [he]
      exact ⟨fun j hj => absurd hj (Nat.not_lt_zero j), hc⟩
    have he : strlen (c :: line) = strlen line + 1 := by simp [strlen, hc]
    rw [he]
    refine ⟨fun j hj => ?_, ih.last⟩
    cases j with
    | zero => exact hc
    | succ j => exact ih.inner j (Nat.lt_of_succ_lt_succ hj)

namespace Ends

theorem eq_end (h : Ends line es) (hi : i ≤ es) (hc : char line i = 0) : i = es := by
  by_contra hne
  exact h.inner i (Nat.lt_of_le_of_ne hi hne) hc

/-- A line has one end. -/
theorem eq_end_of {es' : Nat} (h : Ends line es) (h' : Ends line es') : es = es' := by
  rcases Nat.lt_trichotomy es es' with hlt | he | hgt
  · exact absurd h.last (h'.inner es hlt)
  · exact he
  · exact absurd h'.last (h.inner es' hgt)

theorem lt_end (h : Ends line es) (hi : i ≤ es) (hc : char line i ≠ 0) : i < es := by
  rcases Nat.eq_or_lt_of_le hi with rfl | hlt
  · exact absurd h.last hc
  · exact hlt

end Ends

/-! ### The cases of `gettoken` -/

section

variable (hs : skip line es i = s)

include hs

theorem gettoken_end (hc : char line s = 0) : gettoken line es i = ⟨0, s, s, skip line es s⟩ := by
  simp only [gettoken, hs, hc, if_true]

theorem gettoken_one {c : Char} (hm : c ∈ ['|', '(', ')', ';', '&', '<'])
    (hc : char line s = ch c) :
    gettoken line es i = ⟨ch c, s, s + 1, skip line es (s + 1)⟩ := by
  have key : ∀ c ∈ ['|', '(', ')', ';', '&', '<'],
      ch c ≠ 0 ∧ strchr (['|', '(', ')', ';', '&', '<'].map ch) (ch c) = true :=
    List.forall_iff_forall_mem.mp (by decide)
  simp only [gettoken, hs, hc, if_neg (key c hm).1, if_pos (key c hm).2]

theorem gettoken_gtgt (hc : char line s = ch '>') (hc' : char line (s + 1) = ch '>') :
    gettoken line es i = ⟨ch '+', s, s + 2, skip line es (s + 2)⟩ := by
  have key : ch '>' ≠ 0 ∧ strchr (['|', '(', ')', ';', '&', '<'].map ch) (ch '>') = false := by
    decide
  simp only [gettoken, hs, hc, hc', if_neg key.1, key.2, if_true, Bool.false_eq_true, if_false]

theorem gettoken_gt (hc : char line s = ch '>') (hc' : char line (s + 1) ≠ ch '>') :
    gettoken line es i = ⟨ch '>', s, s + 1, skip line es (s + 1)⟩ := by
  have key : ch '>' ≠ 0 ∧ strchr (['|', '(', ')', ';', '&', '<'].map ch) (ch '>') = false := by
    decide
  simp only [gettoken, hs, hc, if_neg hc', if_neg key.1, key.2, if_true, Bool.false_eq_true,
    if_false]

theorem gettoken_word (h0 : char line s ≠ 0) (hc : strchr symbols (char line s) = false) :
    gettoken line es i = ⟨ch 'a', s, wordEnd line es s, skip line es (wordEnd line es s)⟩ := by
  have hsix : strchr (['|', '(', ')', ';', '&', '<'].map ch) (char line s) = false := by
    simp only [strchr, symbols, List.map_cons, List.contains_cons, Bool.or_eq_false_iff] at hc ⊢
    simp [hc]
  have hgt : char line s ≠ ch '>' := by
    intro e
    rw [e] at hc
    exact absurd hc (by decide)
  simp only [gettoken, hs, if_neg h0, hsix, if_neg hgt, Bool.false_eq_true, if_false]

end

/-- A character is the end of the line, a symbol, or part of a word or of the space around it. -/
theorem char_cases (c : UInt8) :
    c = 0 ∨ (∃ d ∈ ['|', '(', ')', ';', '&', '<'], c = ch d) ∨ c = ch '>' ∨
      (c ≠ 0 ∧ strchr symbols c = false) := by
  by_cases h0 : c = 0
  · exact .inl h0
  cases h : strchr symbols c with
  | false => exact .inr (.inr (.inr ⟨h0, rfl⟩))
  | true =>
    obtain ⟨d, hd, rfl⟩ := List.mem_map.mp (List.contains_iff_mem.mp h)
    have key : ∀ d ∈ ['<', '|', '>', '&', ';', '(', ')'],
        d ∈ ['|', '(', ')', ';', '&', '<'] ∨ d = '>' :=
      List.forall_iff_forall_mem.mp (by decide)
    rcases key d hd with hm | rfl
    · exact .inr (.inl ⟨d, hm, rfl⟩)
    · exact .inr (.inr (.inl rfl))

/-- The symbols of one character. -/
def Tok.ofChar (c : Char) : Tok ω :=
  if c = '|' then .bar else if c = '(' then .lpar else if c = ')' then .rpar
  else if c = ';' then .semi else if c = '&' then .amp else .lt

theorem ofChar_spec : ∀ c ∈ ['|', '(', ')', ';', '&', '<'], ∀ q eq next : Nat,
    (Token.mk (ch c) q eq next).tok = some (.ofChar c) ∧
      (Tok.ofChar c : Tok ω).code = ch c ∧ (Tok.ofChar c : Tok ω).sym = some c := by
  simp only [List.mem_cons, List.not_mem_nil, or_false]
  rintro c (rfl | rfl | rfl | rfl | rfl | rfl) q eq next <;> exact ⟨rfl, rfl, rfl⟩

namespace Ends

variable {t : Tok Slice}

/-- What `gettoken` finds: nothing, at the end of the line, or a token. -/
theorem found (h : Ends line es) (hi : i ≤ es) :
    (gettoken line es i).tok = none ∧ (gettoken line es i).ret = 0 ∧
        (gettoken line es i).next = es ∧ skip line es i = es ∨
      ∃ t : Tok Slice, (gettoken line es i).tok = some t ∧ (gettoken line es i).ret = t.code ∧
        (∀ w, t = .word w → w = ((gettoken line es i).q, (gettoken line es i).eq)) ∧
        i < (gettoken line es i).next ∧ (gettoken line es i).next ≤ es ∧
        char line (skip line es i) ≠ 0 ∧
        match t.sym with
        | some c => char line (skip line es i) = ch c
        | none => strchr symbols (char line (skip line es i)) = false := by
  obtain ⟨hs₁, hs₂, -, hws⟩ := skip_spec line hi
  generalize hs : skip line es i = s at *
  have hnext : ∀ e, s < e → e ≤ es → i < skip line es e ∧ skip line es e ≤ es := fun e h₁ h₂ =>
    ⟨by have := (skip_spec line h₂).1; omega, (skip_spec line h₂).2.1⟩
  rcases char_cases (char line s) with hc | ⟨c, hm, hc⟩ | hc | ⟨h0, hc⟩
  · have he := h.eq_end hs₂ hc
    rw [gettoken_end hs hc]
    left
    refine ⟨rfl, rfl, ?_, he⟩
    rw [← hs, skip_skip hi, hs, he]
  · obtain ⟨h₁, h₂, h₃⟩ := ofChar_spec (ω := Slice) c hm s (s + 1) (skip line es (s + 1))
    have h0 : char line s ≠ 0 := by
      rw [hc]
      have key : ∀ c ∈ ['|', '(', ')', ';', '&', '<'], ch c ≠ 0 :=
        List.forall_iff_forall_mem.mp (by decide)
      exact key c hm
    have hn := hnext _ (Nat.lt_succ_self s) (h.lt_end hs₂ h0)
    rw [gettoken_one hs hm hc]
    right
    refine ⟨_, h₁, h₂.symm, fun w hw => ?_, hn.1, hn.2, h0, ?_⟩
    · rw [hw] at h₃
      cases h₃
    · rw [h₃]
      exact hc
  · have h0 : char line s ≠ 0 := by
      rw [hc]
      decide
    have hlt := h.lt_end hs₂ h0
    right
    by_cases hc' : char line (s + 1) = ch '>'
    · have hlt' : s + 1 < es := h.lt_end hlt (by rw [hc']; decide)
      have hn := hnext _ (Nat.lt_add_of_pos_right Nat.two_pos) hlt'
      rw [gettoken_gtgt hs hc hc']
      exact ⟨.gtgt, rfl, rfl, (fun w hw => nomatch hw), hn.1, hn.2, h0, hc⟩
    · have hn := hnext _ (Nat.lt_succ_self s) hlt
      rw [gettoken_gt hs hc hc']
      exact ⟨.gt, rfl, rfl, (fun w hw => nomatch hw), hn.1, hn.2, h0, hc⟩
  · have hlt := h.lt_end hs₂ h0
    obtain ⟨hw, hwe⟩ := wordEnd_spec hlt (hws hlt) hc
    have hn := hnext _ hw hwe
    rw [gettoken_word hs h0 hc]
    right
    exact ⟨.word (s, wordEnd line es s), rfl, rfl, fun w hw => by cases hw; rfl, hn.1, hn.2, h0, hc⟩

end Ends

/-! ### The line as tokens -/

theorem strchr_ch {c : Char} {toks : List Char} (hc : c ∈ ['<', '|', '>', '&', ';', '(', ')'])
    (ht : ∀ d ∈ toks, d ∈ ['<', '|', '>', '&', ';', '(', ')']) :
    strchr (toks.map ch) (ch c) = toks.contains c := by
  have inj : ∀ c ∈ ['<', '|', '>', '&', ';', '(', ')'],
      ∀ d ∈ ['<', '|', '>', '&', ';', '(', ')'], ch d = ch c → d = c := by
    intro c hc
    simp only [List.mem_cons, List.not_mem_nil, or_false] at hc
    rcases hc with rfl | rfl | rfl | rfl | rfl | rfl | rfl <;>
      exact List.forall_iff_forall_mem.mp (by decide)
  rw [Bool.eq_iff_iff, strchr, List.contains_iff_mem, List.contains_iff_mem]
  constructor
  · intro h
    obtain ⟨d, hd, e⟩ := List.mem_map.mp h
    exact inj c hc d (ht d hd) e ▸ hd
  · exact fun h => List.mem_map_of_mem h

theorem strchr_word {c : UInt8} {toks : List Char} (hc : strchr symbols c = false)
    (ht : ∀ d ∈ toks, d ∈ ['<', '|', '>', '&', ';', '(', ')']) :
    strchr (toks.map ch) c = false := by
  rw [strchr, List.contains_eq_mem, decide_eq_false_iff_not] at hc ⊢
  intro h
  obtain ⟨d, hd, rfl⟩ := List.mem_map.mp h
  exact hc (List.mem_map_of_mem (ht d hd))

theorem sym_mem {t : Tok ω} {c : Char} (h : t.sym = some c) :
    c ∈ ['<', '|', '>', '&', ';', '(', ')'] := by
  cases t <;> cases h <;> decide

namespace Tokens

variable {ts : List (Tok Slice)} {t : Tok Slice}

theorem le (h : Tokens line es i ts) : i ≤ es := by
  cases h with
  | done hi _ => exact hi
  | more hi _ _ => exact hi

theorem skip (h : Tokens line es i ts) : Tokens line es (skip line es i) ts := by
  have hle := (skip_spec line h.le).2.1
  cases h with
  | done hi h => exact .done hle (by rw [gettoken_skip hi, h])
  | more hi h hs => exact .more hle (by rw [gettoken_skip hi, h]) (by rw [gettoken_skip hi]; exact hs)

section

variable (hE : Ends line es)
include hE

/-- `peek` looks at the next token. -/
theorem peek (h : Tokens line es i ts) {toks : List Char}
    (ht : ∀ d ∈ toks, d ∈ ['<', '|', '>', '&', ';', '(', ')']) :
    Sh.peek line es i toks = (Sh.skip line es i, starts ts toks) := by
  simp only [Sh.peek, Prod.mk.injEq, true_and]
  rcases hE.found h.le with ⟨hn, -, -, hend⟩ | ⟨t, hsome, -, -, -, -, h0, hsym⟩
  · cases h with
    | done _ _ =>
      rw [hend, hE.last]
      rfl
    | more _ h _ =>
      rw [hn] at h
      cases h
  · cases h with
    | done _ h =>
      rw [hsome] at h
      cases h
    | more _ h _ =>
      obtain rfl : t = _ := Option.some.inj (hsome.symm.trans h)
      have h0 : (char line (Sh.skip line es i) != 0) = true := by simpa using h0
      rw [h0, Bool.true_and, starts]
      cases hc : t.sym with
      | none =>
        rw [hc] at hsym
        exact strchr_word hsym ht
      | some c =>
        rw [hc] at hsym
        rw [hsym, strchr_ch (sym_mem hc) ht]
        rfl

/-- `gettoken` takes the next token off. -/
theorem gettoken (h : Tokens line es i (t :: ts)) : (Sh.gettoken line es i).ret = t.code ∧
      (∀ w, t = .word w → w = ((Sh.gettoken line es i).q, (Sh.gettoken line es i).eq)) ∧
      Tokens line es (Sh.gettoken line es i).next ts := by
  cases h with
  | more hi h hs =>
    rcases hE.found hi with ⟨hn, -⟩ | ⟨t', hsome, hret, hw, -⟩
    · rw [hn] at h
      cases h
    · obtain rfl := Option.some.inj (h.symm.trans hsome)
      exact ⟨hret, hw, hs⟩

/-- At the end of the line `gettoken` returns 0. -/
theorem gettoken_nil (h : Tokens line es i []) :
    (Sh.gettoken line es i).ret = 0 ∧ Tokens line es (Sh.gettoken line es i).next [] ∧
      Sh.skip line es i = es := by
  cases h with
  | done hi h =>
    rcases hE.found hi with ⟨hn, hret, hnext, hend⟩ | ⟨t', hsome, -⟩
    · refine ⟨hret, ?_, hend⟩
      have := (Tokens.done hi hn).skip
      rw [hend] at this
      rw [hnext]
      exact this
    · rw [hsome] at h
      cases h

/-- Nothing but whitespace is left where there are no tokens. -/
theorem skip_eq_iff (h : Tokens line es i ts) : Sh.skip line es i = es ↔ ts = [] := by
  constructor
  · intro hend
    cases h with
    | done _ _ => rfl
    | more hi h hs =>
      rcases hE.found hi with ⟨hn, -⟩ | ⟨t', -, -, -, -, -, h0, -⟩
      · rw [hn] at h
        cases h
      · rw [hend] at h0
        exact absurd hE.last h0
  · rintro rfl
    exact (h.gettoken_nil hE).2.2

theorem length_le (h : Tokens line es i ts) : ts.length + i ≤ es := by
  induction h with
  | done hi _ =>
    rw [List.length_nil, Nat.zero_add]
    exact hi
  | more hi h hs ih =>
    rcases hE.found hi with ⟨hn, -⟩ | ⟨t', -, -, -, hlt, -⟩
    · rw [hn] at h
      cases h
    · rw [List.length_cons]
      omega

end

end Tokens

theorem tokensFrom_spec (hE : Ends line es) (hi : i ≤ es) (hk : es < i + k) :
    Tokens line es i (tokensFrom line es k i) := by
  induction k generalizing i with
  | zero => omega
  | succ k ih =>
    rw [tokensFrom]
    rcases hE.found hi with ⟨hn, -⟩ | ⟨t, hsome, -, -, hlt, hle, -⟩
    · rw [hn]
      exact .done hi hn
    · rw [hsome]
      exact .more hi hsome (ih hle (by omega))

/-- The token sequence of a line is what is left of it at its beginning. -/
theorem tokens_spec (line : List UInt8) : Tokens line (strlen line) 0 (tokens line) :=
  tokensFrom_spec (ends_strlen line) (Nat.zero_le _) (by omega)

end Xv6.Sh
