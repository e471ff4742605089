import Xv6.Sh.Lex
import Mathlib

/-!
# Sh — the parser and its grammar

```
line  ::= pipe '&'* [';' line]
pipe  ::= exec ['|' pipe]
exec  ::= '(' line ')' redir*  |  redir* (word redir*)*
redir ::= ('<' | '>' | '>>') word
```

with fewer than `MAXARGS` words in a simple command.  `Derives part ts cmd` says that the tokens `ts`
are derived from a part of the grammar, and that `cmd` is the tree which the derivation gives.

The proof follows the procedures in both directions.  What a procedure takes off the line is derived
from its part (`parse_yields`, which also says that the bounds on the rounds suffice): this is an
induction on the bound.  And what is derived from a part, and followed by a token that may follow it,
is taken off by the procedure (`parse_accepts`): this is an induction on the derivation.

* `parsecmd_grammar`: **the parser accepts exactly its grammar**.
-/

namespace Xv6.Sh

/-! ### The grammar -/

section

variable {ω : Type}

/-- The redirection that an operator and a word make. -/
def Tok.redir (op : Tok ω) (w : ω) : Option (Redir ω) :=
  match op with
  | .lt => some ⟨w, O_RDONLY, 0⟩
  | .gt | .gtgt => some ⟨w, O_WRONLY ||| O_CREATE, 1⟩
  | _ => none

/-- `redir*` -/
inductive Redirs : List (Tok ω) → List (Redir ω) → Prop where
  | nil : Redirs [] []
  | cons {op : Tok ω} {w : ω} {r : Redir ω} {ts : List (Tok ω)} {rs : List (Redir ω)}
      (hop : op.redir w = some r) (h : Redirs ts rs) : Redirs (op :: .word w :: ts) (r :: rs)

/-- `(word redir*)*` -/
inductive Args : List (Tok ω) → List ω → List (Redir ω) → Prop where
  | nil : Args [] [] []
  | cons {w : ω} {us ts : List (Tok ω)} {argv : List ω} {rs rs' : List (Redir ω)}
      (hr : Redirs us rs) (ha : Args ts argv rs') :
      Args (.word w :: (us ++ ts)) (w :: argv) (rs ++ rs')

/-- The REDIR nodes, from the innermost to the outermost, over a command. -/
def Cmd.wrap (cmd : Cmd ω) (rs : List (Redir ω)) : Cmd ω := rs.foldl .redir cmd

/-- As many BACK nodes over a command. -/
def Cmd.backs (cmd : Cmd ω) : Nat → Cmd ω
  | 0 => cmd
  | n + 1 => .back (cmd.backs n)

inductive Part where
  | line
  | pipe
  | exec

/-- The tokens are derived from the part of the grammar, with this tree. -/
inductive Derives : Part → List (Tok ω) → Cmd ω → Prop where
  | line {ts : List (Tok ω)} {cmd : Cmd ω} (h : Derives .pipe ts cmd) (n : Nat) :
      Derives .line (ts ++ List.replicate n .amp) (cmd.backs n)
  | list {ts ts' : List (Tok ω)} {cmd cmd' : Cmd ω} (h : Derives .pipe ts cmd) (n : Nat)
      (h' : Derives .line ts' cmd') :
      Derives .line (ts ++ List.replicate n .amp ++ .semi :: ts') (.list (cmd.backs n) cmd')
  | single {ts : List (Tok ω)} {cmd : Cmd ω} (h : Derives .exec ts cmd) : Derives .pipe ts cmd
  | pipe {ts ts' : List (Tok ω)} {cmd cmd' : Cmd ω} (h : Derives .exec ts cmd)
      (h' : Derives .pipe ts' cmd') : Derives .pipe (ts ++ .bar :: ts') (.pipe cmd cmd')
  | block {ts us : List (Tok ω)} {cmd : Cmd ω} {rs : List (Redir ω)} (h : Derives .line ts cmd)
      (hr : Redirs us rs) : Derives .exec (.lpar :: (ts ++ .rpar :: us)) (cmd.wrap rs)
  | simple {us ts : List (Tok ω)} {argv : List ω} {rs rs' : List (Redir ω)} (hr : Redirs us rs)
      (ha : Args ts argv rs') (hlt : argv.length < MAXARGS) :
      Derives .exec (us ++ ts) (Cmd.wrap (.exec argv) (rs ++ rs'))

/-! ### Trees -/

theorem wrap_append (cmd : Cmd ω) (rs rs' : List (Redir ω)) :
    cmd.wrap (rs ++ rs') = (cmd.wrap rs).wrap rs' := List.foldl_append ..

theorem addArg_wrap (argv : List ω) (w : ω) (rs : List (Redir ω)) :
    (Cmd.wrap (.exec argv) rs).addArg w = Cmd.wrap (.exec (argv ++ [w])) rs := by
  induction rs using List.reverseRecOn with
  | nil => rfl
  | append_singleton rs r ih =>
    rw [wrap_append, wrap_append]
    exact congrArg (Cmd.redir · r) ih

theorem backs_back (cmd : Cmd ω) (n : Nat) : cmd.back.backs n = cmd.backs (n + 1) := by
  induction n with
  | zero => rfl
  | succ n ih => exact congrArg Cmd.back ih

/-! ### Tokens -/

theorem code_word {t : Tok ω} (h : t.code = ch 'a') : ∃ w, t = .word w := by
  cases t with
  | word w => exact ⟨w, rfl⟩
  | _ => cases h

theorem code_ne_zero (t : Tok ω) : t.code ≠ 0 := by
  intro h
  cases t <;> cases h

theorem starts_redir {ts : List (Tok ω)} (h : starts ts ['<', '>'] = true) :
    ∃ op ts', ts = op :: ts' ∧ ∀ w, op.redir w =
      some (if op.code = ch '<' then ⟨w, O_RDONLY, 0⟩ else ⟨w, O_WRONLY ||| O_CREATE, 1⟩) := by
  cases ts with
  | nil => cases h
  | cons op ts' =>
    refine ⟨op, ts', rfl, fun w => ?_⟩
    cases op with
    | lt => rfl
    | gt => rfl
    | gtgt => rfl
    | _ => cases h

/-- A symbol other than `>` is the beginning of one token only. -/
theorem starts_one {ts : List (Tok ω)} {c : Char} (hc : c ∈ ['|', '(', ')', ';', '&'])
    (h : starts ts [c] = true) : ∃ ts', ts = .ofChar c :: ts' := by
  cases ts with
  | nil => cases h
  | cons t ts =>
    refine ⟨ts, congrArg (· :: ts) ?_⟩
    simp only [List.mem_cons, List.not_mem_nil, or_false] at hc
    rcases hc with rfl | rfl | rfl | rfl | rfl <;> cases t <;> first | rfl | cases h

end

/-! ### What a procedure takes off is derived from its part -/

/-- A parse that does not run out of rounds, and gives only what satisfies `Q`. -/
def Yields (x : Except Fail (Cmd Slice × Nat)) (Q : Cmd Slice → Nat → Prop) : Prop :=
  match x with
  | .ok (cmd, j) => Q cmd j
  | .error .fuel => False
  | .error (.panic _) => True

theorem Yields.bind {x : Except Fail (Cmd Slice × Nat)}
    {f : Cmd Slice × Nat → Except Fail (Cmd Slice × Nat)} {Q R : Cmd Slice → Nat → Prop}
    (h : Yields x Q) (hf : ∀ cmd j, Q cmd j → Yields (f (cmd, j)) R) : Yields (x >>= f) R := by
  rcases x with (msg | _) | ⟨cmd, j⟩
  · trivial
  · cases h
  · exact hf cmd j h

theorem Yields.mono {x : Except Fail (Cmd Slice × Nat)} {Q R : Cmd Slice → Nat → Prop}
    (h : Yields x Q) (hQ : ∀ cmd j, Q cmd j → R cmd j) : Yields x R := by
  rcases x with (msg | _) | ⟨cmd, j⟩
  · trivial
  · cases h
  · exact hQ cmd j h

variable {line : List UInt8} {es i : Nat} {ts : List (Tok Slice)}

variable {k : Nat} {cmd : Cmd Slice} {argv : List Slice} {rs : List (Redir Slice)}
    {toks : List Char} {us : List (Tok Slice)}

section

variable (hE : Ends line es) (h : Tokens line es i ts) (hk : ts.length < k)
include hE h hk

theorem redirs_yields : Yields (parseredirs line es k cmd i) fun cmd' j => ∃ us ts' rs,
      ts = us ++ ts' ∧ Redirs us rs ∧ cmd' = cmd.wrap rs ∧ Tokens line es j ts' := by
  induction k generalizing cmd i ts with
  | zero => exact absurd hk (Nat.not_lt_zero _)
  | succ k ih =>
    rw [parseredirs, h.peek hE (by simp)]
    cases hst : starts ts ['<', '>'] with
    | false => exact ⟨[], ts, [], rfl, .nil, rfl, h.skip⟩
    | true =>
      obtain ⟨op, ts', rfl, hop⟩ := starts_redir hst
      obtain ⟨hret, -, hnext⟩ := h.skip.gettoken hE
      simp only [if_true]
      split
      · trivial
      rename_i hfile
      have hfile := not_not.mp hfile
      cases ts' with
      | nil =>
        rw [(hnext.gettoken_nil hE).1] at hfile
        exact absurd hfile (by decide)
      | cons t ts' =>
        obtain ⟨hret', hw, hnext'⟩ := hnext.gettoken hE
        obtain ⟨w, rfl⟩ := code_word (hret'.symm.trans hfile)
        obtain rfl := hw w rfl
        rw [hret]
        have hk' : ts'.length < k := by
          rw [List.length_cons, List.length_cons] at hk
          omega
        refine (ih hnext' hk').mono ?_
        rintro cmd' j ⟨us, ts'', rs, rfl, hr, rfl, hj⟩
        exact ⟨op :: .word _ :: us, ts'', _ :: rs, rfl, .cons (hop _) hr, rfl, hj⟩

theorem args_yields (hargc : argv.length < MAXARGS) :
    Yields (parseargs line es k (Cmd.wrap (.exec argv) rs) argv.length i) fun cmd' j =>
      ∃ us ts' argv' rs', ts = us ++ ts' ∧ Args us argv' rs' ∧
        (argv ++ argv').length < MAXARGS ∧
        cmd' = Cmd.wrap (.exec (argv ++ argv')) (rs ++ rs') ∧ Tokens line es j ts' := by
  induction k generalizing argv rs i ts with
  | zero => exact absurd hk (Nat.not_lt_zero _)
  | succ k ih =>
    -- where the loop ends nothing more is taken off
    have hstop : ∀ j, Tokens line es j ts → ∃ us ts' argv' rs', ts = us ++ ts' ∧
        Args us argv' rs' ∧ (argv ++ argv').length < MAXARGS ∧
        Cmd.wrap (.exec argv) rs = Cmd.wrap (.exec (argv ++ argv')) (rs ++ rs') ∧
        Tokens line es j ts' := fun j hj =>
      ⟨[], ts, [], [], rfl, .nil, by rwa [List.append_nil],
        by rw [List.append_nil, List.append_nil], hj⟩
    rw [parseargs, h.peek hE (by simp)]
    cases hst : starts ts ['|', ')', '&', ';'] with
    | true => exact hstop _ h.skip
    | false =>
      simp only [Bool.false_eq_true, if_false]
      cases ts with
      | nil =>
        obtain ⟨hret, hnext, -⟩ := h.skip.gettoken_nil hE
        rw [if_pos hret]
        exact hstop _ hnext
      | cons t ts =>
        obtain ⟨hret, hw, hnext⟩ := h.skip.gettoken hE
        rw [hret, if_neg (code_ne_zero t)]
        split
        · trivial
        rename_i hword
        obtain ⟨w, rfl⟩ := code_word (not_not.mp hword)
        rw [← hw w rfl]
        split
        · trivial
        rename_i hargs
        have hlen := h.length_le hE
        rw [List.length_cons] at hk hlen
        rw [addArg_wrap]
        refine (redirs_yields hE hnext (by omega)).bind ?_
        rintro cmd' j ⟨us, ts', rs', rfl, hr, rfl, hj⟩
        have hk' : ts'.length < k := by
          rw [List.length_append] at hk
          omega
        have hargc' : (argv ++ [w]).length = argv.length + 1 := by
          rw [List.length_append, List.length_singleton]
        rw [← wrap_append, ← hargc']
        refine (ih hj hk' (by rw [hargc']; omega)).mono ?_
        rintro cmd' j ⟨us', ts'', argv', rs'', rfl, ha, hlt, rfl, hj⟩
        refine ⟨.word w :: (us ++ us'), ts'', w :: argv', rs' ++ rs'', ?_, .cons hr ha, ?_, ?_, hj⟩
        · rw [List.cons_append, List.append_assoc]
        · rwa [List.append_assoc] at hlt
        · rw [List.append_assoc, List.append_assoc]
          rfl

theorem backs_yields : Yields (parsebacks line es k cmd i) fun cmd' j => ∃ n ts',
      ts = List.replicate n .amp ++ ts' ∧ cmd' = cmd.backs n ∧ Tokens line es j ts' := by
  induction k generalizing cmd i ts with
  | zero => exact absurd hk (Nat.not_lt_zero _)
  | succ k ih =>
    rw [parsebacks, h.peek hE (by simp)]
    cases hst : starts ts ['&'] with
    | false => exact ⟨0, ts, rfl, rfl, h.skip⟩
    | true =>
      obtain ⟨ts', rfl⟩ := starts_one (by decide) hst
      refine (ih (h.skip.gettoken hE).2.2 (Nat.lt_of_succ_lt_succ hk)).mono ?_
      rintro cmd' j ⟨n, ts'', rfl, rfl, hj⟩
      exact ⟨n + 1, ts'', rfl, backs_back .., hj⟩

end

/-- What a procedure is to do: take tokens off the line that are derived from a part. -/
def Reads (line : List UInt8) (es : Nat) (part : Part) (ts : List (Tok Slice))
    (x : Except Fail (Cmd Slice × Nat)) : Prop :=
  Yields x fun cmd j => ∃ us ts', ts = us ++ ts' ∧ Derives part us cmd ∧ Tokens line es j ts'

/-- The four procedures read their parts.  A bound of 4 rounds for each token, and one for each
procedure on the way to the next token, suffices. -/
theorem parse_yields (hE : Ends line es) (n : Nat) :
    (∀ i ts, Tokens line es i ts → 4 * ts.length + 4 ≤ n →
        Reads line es .line ts (parseline line es n i)) ∧
      (∀ i ts, Tokens line es i ts → 4 * ts.length + 3 ≤ n →
        Reads line es .pipe ts (parsepipe line es n i)) ∧
      (∀ i ts, Tokens line es i ts → 4 * ts.length + 2 ≤ n →
        Reads line es .exec ts (parseexec line es n i)) ∧
      ∀ i ts, Tokens line es i (.lpar :: ts) → 4 * ts.length + 5 ≤ n →
        Reads line es .exec (.lpar :: ts) (parseblock line es n i) := by
  induction n with
  | zero => exact ⟨by omega, by omega, by omega, by omega⟩
  | succ n ih =>
    obtain ⟨ihline, ihpipe, ihexec, ihblock⟩ := ih
    refine ⟨fun i ts h hn => ?_, fun i ts h hn => ?_, fun i ts h hn => ?_, fun i ts h hn => ?_⟩
    · rw [parseline]
      refine (ihpipe i ts h (by omega)).bind ?_
      rintro cmd j ⟨us, ts', rfl, hd, hj⟩
      have hlen := hj.length_le hE
      refine (backs_yields hE hj (by omega)).bind ?_
      rintro cmd' j' ⟨m, ts'', rfl, rfl, hj'⟩
      simp only [hj'.peek hE (show ∀ d ∈ [';'], _ by simp)]
      cases hst : starts ts'' [';'] with
      | false => exact ⟨us ++ List.replicate m .amp, ts'', by simp, .line hd m, hj'.skip⟩
      | true =>
        obtain ⟨ts₂, rfl⟩ := starts_one (by decide) hst
        simp only [List.length_append, List.length_cons] at hn
        refine (ihline _ _ (hj'.skip.gettoken hE).2.2 (by omega)).bind ?_
        rintro cmd₂ j₂ ⟨us₂, ts₃, rfl, hd₂, hj₂⟩
        exact ⟨us ++ List.replicate m .amp ++ .semi :: us₂, ts₃, by simp [Tok.ofChar],
          .list hd m hd₂, hj₂⟩
    · rw [parsepipe]
      refine (ihexec i ts h (by omega)).bind ?_
      rintro cmd j ⟨us, ts', rfl, hd, hj⟩
      simp only [hj.peek hE (show ∀ d ∈ ['|'], _ by simp)]
      cases hst : starts ts' ['|'] with
      | false => exact ⟨us, ts', rfl, .single hd, hj.skip⟩
      | true =>
        obtain ⟨ts₂, rfl⟩ := starts_one (by decide) hst
        simp only [List.length_append, List.length_cons] at hn
        refine (ihpipe _ _ (hj.skip.gettoken hE).2.2 (by omega)).bind ?_
        rintro cmd₂ j₂ ⟨us₂, ts₃, rfl, hd₂, hj₂⟩
        exact ⟨us ++ .bar :: us₂, ts₃, by simp [Tok.ofChar], .pipe hd hd₂, hj₂⟩
    · rw [parseexec, h.peek hE (by simp)]
      cases hst : starts ts ['('] with
      | true =>
        obtain ⟨ts', rfl⟩ := starts_one (by decide) hst
        rw [List.length_cons] at hn
        exact ihblock _ _ h.skip (by omega)
      | false =>
        have hlen := h.length_le hE
        refine (redirs_yields hE h.skip (by omega)).bind ?_
        rintro cmd j ⟨us, ts', rs, rfl, hr, rfl, hj⟩
        have hlen := hj.length_le hE
        refine (args_yields hE hj (by omega)
          (show ([] : List Slice).length < MAXARGS by decide)).mono ?_
        rintro cmd' j' ⟨us', ts'', argv, rs', rfl, ha, hlt, rfl, hj'⟩
        exact ⟨us ++ us', ts'', (List.append_assoc ..).symm, .simple hr ha hlt, hj'⟩
    · rw [parseblock, h.peek hE (by simp)]
      refine (ihline _ _ (h.skip.gettoken hE).2.2 (by omega)).bind ?_
      rintro cmd j ⟨us, ts', rfl, hd, hj⟩
      simp only [hj.peek hE (show ∀ d ∈ [')'], _ by simp)]
      cases hst : starts ts' [')'] with
      | false => trivial
      | true =>
        obtain ⟨ts₂, rfl⟩ := starts_one (by decide) hst
        have hj' := (hj.skip.gettoken hE).2.2
        have hlen := hj'.length_le hE
        refine (redirs_yields hE hj' (by omega)).mono ?_
        rintro cmd' j' ⟨us', ts'', rs, rfl, hr, rfl, hj'⟩
        exact ⟨.lpar :: (us ++ .rpar :: us'), ts'', by simp [Tok.ofChar], .block hd hr, hj'⟩

/-! ### What is derived from a part is taken off by its procedure -/

theorem semi_mem : ∀ d ∈ [';'], d ∈ ['<', '|', '>', '&', ';', '(', ')'] := by simp

theorem bar_mem : ∀ d ∈ ['|'], d ∈ ['<', '|', '>', '&', ';', '(', ')'] := by simp

theorem lpar_mem : ∀ d ∈ ['('], d ∈ ['<', '|', '>', '&', ';', '(', ')'] := by simp

theorem rpar_mem : ∀ d ∈ [')'], d ∈ ['<', '|', '>', '&', ';', '(', ')'] := by simp

theorem starts_mono {toks' : List Char} (h : starts ts toks = true)
    (hsub : ∀ c ∈ toks, c ∈ toks') : starts ts toks' = true := by
  cases ts with
  | nil => cases h
  | cons t ts =>
    rw [starts] at h ⊢
    cases hc : t.sym with
    | none =>
      rw [hc] at h
      cases h
    | some c =>
      rw [hc] at h
      exact List.contains_iff_mem.mpr (hsub c (List.contains_iff_mem.mp h))

theorem starts_disjoint {toks' : List Char} (h : ts = [] ∨ starts ts toks = true)
    (hdis : ∀ c ∈ toks, c ∉ toks') : starts ts toks' = false := by
  rcases h with rfl | h
  · rfl
  cases ts with
  | nil => rfl
  | cons t ts =>
    rw [starts] at h ⊢
    cases hc : t.sym with
    | none => rfl
    | some c =>
      rw [hc] at h
      rw [Option.any_some, List.contains_eq_mem, decide_eq_false_iff_not]
      exact hdis c (List.contains_iff_mem.mp h)

/-- The symbols that may follow a part. -/
def Part.follow : Part → List Char
  | .line => [')']
  | .pipe => [')', '&', ';']
  | .exec => [')', '&', ';', '|']

/-- Nothing follows a part, or what may follow it. -/
def Follows (part : Part) (ts : List (Tok Slice)) : Prop := ts = [] ∨ starts ts part.follow = true

theorem Follows.mono {part part' : Part} (h : Follows part ts)
    (hsub : ∀ c ∈ part.follow, c ∈ part'.follow) : Follows part' ts :=
  h.imp_right fun h => starts_mono h hsub

theorem Follows.amps (h : Follows .pipe ts) (n : Nat) :
    Follows .pipe (List.replicate n .amp ++ ts) := by
  cases n with
  | zero => exact h
  | succ n => exact .inr rfl

theorem Redirs.accepts (hE : Ends line es) (hr : Redirs us rs) (h : Tokens line es i (us ++ ts))
    (hk : us.length < k) (hst : starts ts ['<', '>'] = false) :
    ∃ j, parseredirs line es k cmd i = .ok (cmd.wrap rs, j) ∧ Tokens line es j ts := by
  induction hr generalizing k cmd i with
  | nil =>
    obtain ⟨k, rfl⟩ := Nat.exists_eq_succ_of_ne_zero (Nat.ne_zero_of_lt hk)
    refine ⟨skip line es i, ?_, h.skip⟩
    rw [parseredirs, h.peek hE (by simp)]
    simp only [List.nil_append, hst]
    rfl
  | @cons op w r us rs hop hr ih =>
    obtain ⟨k, rfl⟩ := Nat.exists_eq_succ_of_ne_zero (Nat.ne_zero_of_lt hk)
    obtain ⟨hret, -, hnext⟩ := h.skip.gettoken hE
    obtain ⟨hret', hw, hnext'⟩ := hnext.gettoken hE
    have hk' : us.length < k := by
      rw [List.length_cons, List.length_cons] at hk
      omega
    obtain ⟨j, hj, hts⟩ : ∃ j, parseredirs line es k (.redir cmd r) _ = _ ∧ _ := ih hnext' hk'
    refine ⟨j, ?_, hts⟩
    have hstart : starts (op :: .word w :: us ++ ts) ['<', '>'] = true := by
      cases op <;> first | rfl | cases hop
    obtain ⟨op', ts', he, hop'⟩ := starts_redir hstart
    cases he
    rw [parseredirs, h.peek hE (by simp), hstart]
    have hword : ¬ (Tok.word w : Tok Slice).code ≠ ch 'a' := fun h => h rfl
    simp only [if_true, hret']
    rw [if_neg hword, hret, ← hw w rfl]
    rw [hop' w] at hop
    rw [Option.some.inj hop]
    exact hj

/-- Arguments begin with a word, or what follows them does not belong to them. -/
theorem Args.starts_false (ha : Args us argv rs) (hf : Follows .exec ts)
    (hdis : ∀ c ∈ Part.exec.follow, c ∉ toks) : starts (us ++ ts) toks = false := by
  cases ha with
  | cons hr ha => rfl
  | nil => exact starts_disjoint hf hdis

theorem Args.accepts (hE : Ends line es) {argv' : List Slice}
    {rs' : List (Redir Slice)} (ha : Args us argv' rs')
    (h : Tokens line es i (us ++ ts)) (hk : us.length < k)
    (hargc : (argv ++ argv').length < MAXARGS) (hf : Follows .exec ts) :
    ∃ j, parseargs line es k (Cmd.wrap (.exec argv) rs) argv.length i =
        .ok (Cmd.wrap (.exec (argv ++ argv')) (rs ++ rs'), j) ∧ Tokens line es j ts := by
  induction ha generalizing k i argv rs with
  | nil =>
    obtain ⟨k, rfl⟩ := Nat.exists_eq_succ_of_ne_zero (Nat.ne_zero_of_lt hk)
    rw [List.append_nil, List.append_nil]
    rw [List.nil_append] at h
    rw [parseargs, h.peek hE (by simp)]
    by_cases hne : ts = []
    · subst hne
      obtain ⟨hret, hnext, -⟩ := h.skip.gettoken_nil hE
      refine ⟨(gettoken line es (skip line es i)).next, ?_, hnext⟩
      simp only [starts, Bool.false_eq_true, if_false]
      rw [if_pos hret]
    · refine ⟨skip line es i, ?_, h.skip⟩
      have hst : starts ts ['|', ')', '&', ';'] = true :=
        starts_mono (hf.resolve_left hne) (by simp [Part.follow])
      simp only [hst, if_true]
  | @cons w vs us argv' rs₁ rs₂ hr ha ih =>
    obtain ⟨k, rfl⟩ := Nat.exists_eq_succ_of_ne_zero (Nat.ne_zero_of_lt hk)
    rw [List.cons_append, List.append_assoc] at h
    obtain ⟨hret, hw, hnext⟩ := h.skip.gettoken hE
    have hlen := h.length_le hE
    simp only [List.length_cons, List.length_append] at hk hlen hargc
    obtain ⟨j, hj, hts⟩ : ∃ j, parseredirs line es (es + 1) (Cmd.wrap (.exec (argv ++ [w])) rs)
        (gettoken line es (skip line es i)).next = _ ∧ _ :=
      hr.accepts hE hnext (by omega) (ha.starts_false hf (by simp [Part.follow]))
    have hargc' : (argv ++ [w]).length = argv.length + 1 := by
      rw [List.length_append, List.length_singleton]
    obtain ⟨j', hj', hts'⟩ : ∃ j', parseargs line es k
        (Cmd.wrap (.exec (argv ++ [w])) (rs ++ rs₁)) (argv ++ [w]).length j = _ ∧ _ :=
      ih hts (by omega) (by rw [List.length_append, hargc']; omega)
    refine ⟨j', ?_, hts'⟩
    have hword : ¬ (Tok.word w : Tok Slice).code ≠ ch 'a' := fun h => h rfl
    rw [parseargs, h.peek hE (by simp)]
    simp only [starts, Tok.sym, Option.any_none, Bool.false_eq_true, if_false]
    rw [hret, if_neg (code_ne_zero _), if_neg hword, if_neg (by omega), ← hw w rfl, addArg_wrap, hj]
    change parseargs line es k ((Cmd.wrap (.exec (argv ++ [w])) rs).wrap rs₁) (argv.length + 1) j
      = _
    rw [← wrap_append, ← hargc', hj', List.append_assoc, List.append_assoc]
    rfl

theorem backs_accepts (hE : Ends line es) {n : Nat}
    (h : Tokens line es i (List.replicate n .amp ++ ts)) (hk : n < k)
    (hst : starts ts ['&'] = false) :
    ∃ j, parsebacks line es k cmd i = .ok (cmd.backs n, j) ∧ Tokens line es j ts := by
  induction n generalizing k cmd i with
  | zero =>
    obtain ⟨k, rfl⟩ := Nat.exists_eq_succ_of_ne_zero (Nat.ne_zero_of_lt hk)
    refine ⟨skip line es i, ?_, h.skip⟩
    rw [parsebacks, h.peek hE (by simp)]
    simp only [List.replicate_zero, List.nil_append, hst]
    rfl
  | succ n ih =>
    obtain ⟨k, rfl⟩ := Nat.exists_eq_succ_of_ne_zero (Nat.ne_zero_of_lt hk)
    obtain ⟨j, hj, hts⟩ : ∃ j, parsebacks line es k cmd.back
        (gettoken line es (skip line es i)).next = _ ∧ _ :=
      ih (h.skip.gettoken hE).2.2 (Nat.lt_of_succ_lt_succ hk)
    refine ⟨j, ?_, hts⟩
    rw [parsebacks, h.peek hE (by simp), ← backs_back, ← hj]
    rfl

/-- The procedure of a part. -/
def parse (line : List UInt8) (es : Nat) : Part → Nat → Nat → Except Fail (Cmd Slice × Nat)
  | .line => parseline line es
  | .pipe => parsepipe line es
  | .exec => parseexec line es

/-- The rounds that the procedure of a part is given, for so many tokens. -/
def Part.rounds : Part → Nat → Nat
  | .line, len => 4 * len + 4
  | .pipe, len => 4 * len + 3
  | .exec, len => 4 * len + 2

theorem parse_accepts (hE : Ends line es) {part : Part}
    (hd : Derives part us cmd) {n : Nat} (h : Tokens line es i (us ++ ts))
    (hn : part.rounds us.length ≤ n) (hf : Follows part ts) :
    ∃ j, parse line es part n i = .ok (cmd, j) ∧ Tokens line es j ts := by
  have hpos : ∃ m, n = m + 1 := Nat.exists_eq_succ_of_ne_zero (by
    cases part <;> simp only [Part.rounds] at hn <;> omega)
  induction hd generalizing n i ts with
  | @line us cmd hd m ih =>
    obtain ⟨n, rfl⟩ := hpos
    simp only [Part.rounds, List.length_append] at hn
    rw [List.append_assoc] at h
    obtain ⟨j, hj, hts⟩ : ∃ j, parsepipe line es n i = _ ∧ _ :=
      ih h (by simp only [Part.rounds]; omega) ((hf.mono (by simp [Part.follow])).amps m)
        ⟨n - 1, by omega⟩
    have hlen := hts.length_le hE
    simp only [List.length_append, List.length_replicate] at hlen
    obtain ⟨j', hj', hts'⟩ : ∃ j', parsebacks line es (es + 1) cmd j = _ ∧ _ :=
      backs_accepts hE hts (by omega) (starts_disjoint hf (by simp [Part.follow]))
    have hst : starts ts [';'] = false := starts_disjoint hf (by simp [Part.follow])
    refine ⟨skip line es j', ?_, hts'.skip⟩
    simp only [parse, parseline, hj, hj', bind, Except.bind, hts'.peek hE semi_mem, hst,
      Bool.false_eq_true, if_false]
  | @list us us' cmd cmd' hd m hd' ih ih' =>
    obtain ⟨n, rfl⟩ := hpos
    simp only [Part.rounds, List.length_append, List.length_cons] at hn
    rw [List.append_assoc, List.append_assoc, List.cons_append] at h
    obtain ⟨j, hj, hts⟩ : ∃ j, parsepipe line es n i = _ ∧ _ :=
      ih h (by simp only [Part.rounds]; omega) (Follows.amps (.inr rfl) m) ⟨n - 1, by omega⟩
    have hlen := hts.length_le hE
    simp only [List.length_append, List.length_replicate] at hlen
    obtain ⟨j', hj', hts'⟩ : ∃ j', parsebacks line es (es + 1) cmd j = _ ∧ _ :=
      backs_accepts hE hts (by omega) rfl
    obtain ⟨j₂, hj₂, hts₂⟩ : ∃ j₂, parseline line es n
        (gettoken line es (skip line es j')).next = _ ∧ _ :=
      ih' (hts'.skip.gettoken hE).2.2 (by simp only [Part.rounds]; omega) hf ⟨n - 1, by omega⟩
    have hst : starts (.semi :: (us' ++ ts)) [';'] = true := rfl
    refine ⟨j₂, ?_, hts₂⟩
    simp only [parse, parseline, hj, hj', bind, Except.bind, hts'.peek hE semi_mem, hst, if_true,
      hj₂]
  | @single us cmd hd ih =>
    obtain ⟨n, rfl⟩ := hpos
    simp only [Part.rounds] at hn
    obtain ⟨j, hj, hts⟩ : ∃ j, parseexec line es n i = _ ∧ _ :=
      ih h (by simp only [Part.rounds]; omega) (hf.mono (by simp [Part.follow])) ⟨n - 1, by omega⟩
    have hst : starts ts ['|'] = false := starts_disjoint hf (by simp [Part.follow])
    refine ⟨skip line es j, ?_, hts.skip⟩
    simp only [parse, parsepipe, hj, bind, Except.bind, hts.peek hE bar_mem, hst,
      Bool.false_eq_true, if_false]
  | @pipe us us' cmd cmd' hd hd' ih ih' =>
    obtain ⟨n, rfl⟩ := hpos
    simp only [Part.rounds, List.length_append, List.length_cons] at hn
    rw [List.append_assoc, List.cons_append] at h
    obtain ⟨j, hj, hts⟩ : ∃ j, parseexec line es n i = _ ∧ _ :=
      ih h (by simp only [Part.rounds]; omega) (.inr rfl) ⟨n - 1, by omega⟩
    obtain ⟨j₂, hj₂, hts₂⟩ : ∃ j₂, parsepipe line es n
        (gettoken line es (skip line es j)).next = _ ∧ _ :=
      ih' (hts.skip.gettoken hE).2.2 (by simp only [Part.rounds]; omega) hf ⟨n - 1, by omega⟩
    have hst : starts (.bar :: (us' ++ ts)) ['|'] = true := rfl
    refine ⟨j₂, ?_, hts₂⟩
    simp only [parse, parsepipe, hj, bind, Except.bind, hts.peek hE bar_mem, hst, if_true, hj₂]
  | @block us vs cmd rs hd hr ih =>
    obtain ⟨n, rfl⟩ := hpos
    simp only [Part.rounds, List.length_append, List.length_cons] at hn
    obtain ⟨n, rfl⟩ : ∃ m, n = m + 1 := ⟨n - 1, by omega⟩
    rw [List.cons_append, List.append_assoc, List.cons_append] at h
    have hst : starts (.lpar :: (us ++ .rpar :: (vs ++ ts))) ['('] = true := rfl
    obtain ⟨j, hj, hts⟩ : ∃ j, parseline line es n
        (gettoken line es (skip line es (skip line es i))).next = _ ∧ _ :=
      ih (h.skip.skip.gettoken hE).2.2 (by simp only [Part.rounds]; omega) (.inr rfl)
        ⟨n - 1, by omega⟩
    have hst' : starts (.rpar :: (vs ++ ts)) [')'] = true := rfl
    have hnext := (hts.skip.gettoken hE).2.2
    have hlen := hnext.length_le hE
    rw [List.length_append] at hlen
    obtain ⟨j', hj', hts'⟩ : ∃ j', parseredirs line es (es + 1) cmd
        (gettoken line es (skip line es j)).next = _ ∧ _ :=
      hr.accepts hE hnext (by omega) (starts_disjoint hf (by simp [Part.follow]))
    refine ⟨j', ?_, hts'⟩
    simp only [parse, parseexec, parseblock, h.peek hE lpar_mem, h.skip.peek hE lpar_mem, hst,
      hj, bind, Except.bind, hts.peek hE rpar_mem, hst', if_true, Bool.not_true,
      Bool.false_eq_true, if_false, hj']
  | @simple us vs argv rs rs' hr ha hlt =>
    obtain ⟨n, rfl⟩ := hpos
    rw [List.append_assoc] at h
    have hst : starts (us ++ (vs ++ ts)) ['('] = false := by
      cases hr with
      | nil => exact ha.starts_false hf (by simp [Part.follow])
      | @cons op w r us rs hop hr => cases op <;> first | rfl | cases hop
    have hlen := h.length_le hE
    simp only [List.length_append] at hlen
    obtain ⟨j, hj, hts⟩ : ∃ j, parseredirs line es (es + 1) (.exec []) (skip line es i) = _ ∧ _ :=
      hr.accepts hE h.skip (by omega) (ha.starts_false hf (by simp [Part.follow]))
    obtain ⟨j', hj', hts'⟩ : ∃ j', parseargs line es (es + 1) (Cmd.wrap (.exec []) rs)
        ([] : List Slice).length j = _ ∧ _ :=
      ha.accepts hE hts (by omega) hlt hf
    refine ⟨j', ?_, hts'⟩
    simp only [List.length_nil, List.nil_append] at hj'
    simp only [parse, parseexec, h.peek hE lpar_mem, hst, bind, Except.bind, Bool.false_eq_true,
      if_false, hj, hj']

/-! ### `parsecmd` -/

/-- What `parsecmd` does with the parse of the line. -/
theorem parsecmd_eq (line : List UInt8) :
    parsecmd line = parseline line (strlen line) (4 * strlen line + 4) 0 >>= fun r =>
      if skip line (strlen line) r.2 ≠ strlen line then .error (.panic "syntax")
      else .ok (r.1, nulterminate line r.1) := rfl

/-- A line whose tokens are derived from `line` is accepted. -/
theorem parsecmd_accepts (hts : Tokens line (strlen line) 0 ts)
    (hd : Derives .line ts cmd) : parsecmd line = .ok (cmd, nulterminate line cmd) := by
  have hE := ends_strlen line
  have hlen := hts.length_le hE
  obtain ⟨j, hj, hts'⟩ : ∃ j, parseline line (strlen line) (4 * strlen line + 4) 0 = _ ∧ _ :=
    parse_accepts hE hd ((List.append_nil _).symm ▸ hts) (by simp only [Part.rounds]; omega)
      (.inl rfl)
  rw [parsecmd_eq, hj]
  exact if_neg (not_not.mpr ((hts'.skip_eq_iff hE).mpr rfl))

end Xv6.Sh
