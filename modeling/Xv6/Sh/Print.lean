import Xv6.Sh.Grammar

/-!
# Sh — what is printed is parsed back

A tree is printed as tokens, with parentheses around a sub-command where its place in the grammar
takes less than it is (`Tree.toks`), and the tokens are spelled as text, with any whitespace around
them and at least some where two of them would run together (`Spells`).

* `tree_derives`: the tokens are derived from `line`, with the tree.
* `spells_tokens`: the tokens of the text are those that it spells.
* `cstring_nulterminate`: the words that `nulterminate` cuts out are those of the line; the byte
  behind a word is no part of any word, so no cut goes through one.
* `print_roundtrip`: **the round trip**.
-/

namespace Xv6.Sh

/-! ### Trees and their tokens -/

/-- A byte of a word. -/
def isWord (c : UInt8) : Bool := c != 0 && !strchr whitespace c && !strchr symbols c

/-- A word that the shell can read. -/
structure Word where
  bytes : List UInt8
  nonempty : bytes ≠ []
  plain : ∀ c ∈ bytes, isWord c = true

/-- Command trees: a simple command has at most 9 words, a redirection is of the input or of the
output. -/
inductive Tree where
  | exec (argv : List Word) (few : argv.length < MAXARGS)
  | redir (cmd : Tree) (out : Bool) (file : Word)
  | pipe (left right : Tree)
  | list (left right : Tree)
  | back (cmd : Tree)

variable {ω : Type} (f : Word → ω)

/-- The tree as a command, its words taken through `f`. -/
def Tree.cmd : Tree → Cmd ω
  | .exec argv _ => .exec (argv.map f)
  | .redir cmd false file => .redir cmd.cmd ⟨f file, O_RDONLY, 0⟩
  | .redir cmd true file => .redir cmd.cmd ⟨f file, O_WRONLY ||| O_CREATE, 1⟩
  | .pipe left right => .pipe left.cmd right.cmd
  | .list left right => .list left.cmd right.cmd
  | .back cmd => .back cmd.cmd

/-- How tightly a tree binds: a list 0, `&` 1, a pipe 2, a simple command 3. -/
def Tree.level : Tree → Nat
  | .exec .. | .redir .. => 3
  | .pipe .. => 2
  | .back _ => 1
  | .list .. => 0

/-- In parentheses, unless it stands alone. -/
def enclose (alone : Bool) (ts : List (Tok ω)) : List (Tok ω) :=
  if alone then ts else .lpar :: (ts ++ [.rpar])

/-- The tokens of a tree. -/
def Tree.toks : Tree → List (Tok ω)
  | .exec argv _ => argv.map fun w => .word (f w)
  | .redir cmd out file =>
    enclose (3 ≤ cmd.level) cmd.toks ++ [if out then .gt else .lt, .word (f file)]
  | .pipe left right =>
    enclose (3 ≤ left.level) left.toks ++ .bar :: enclose (2 ≤ right.level) right.toks
  | .list left right => enclose (1 ≤ left.level) left.toks ++ .semi :: right.toks
  | .back cmd => enclose (1 ≤ cmd.level) cmd.toks ++ [.amp]

/-! ### The tokens are derived from the grammar -/

section

variable {f}

theorem wrap_snoc (cmd : Cmd ω) (rs : List (Redir ω)) (r : Redir ω) :
    cmd.wrap (rs ++ [r]) = .redir (cmd.wrap rs) r := by
  rw [wrap_append]
  rfl

variable {r : Redir ω} {w : ω} {op : Tok ω}

theorem Redirs.snoc {us : List (Tok ω)} {rs : List (Redir ω)}
    (h : Redirs us rs) (hop : op.redir w = some r) :
    Redirs (us ++ [op, .word w]) (rs ++ [r]) := by
  induction h with
  | nil => exact .cons hop .nil
  | cons hop' _ ih => exact .cons hop' ih

theorem Args.snoc {ts : List (Tok ω)} {argv : List ω} {rs : List (Redir ω)} (h : Args ts argv rs)
    (hop : op.redir w = some r) (hne : ts ≠ []) :
    Args (ts ++ [op, .word w]) argv (rs ++ [r]) := by
  induction h with
  | nil => exact absurd rfl hne
  | @cons w' us ts argv rs rs' hr ha ih =>
    rw [List.cons_append, List.append_assoc, List.append_assoc]
    by_cases hts : ts = []
    · subst hts
      cases ha
      have := Args.cons (w := w') (hr.snoc hop) .nil
      rwa [List.append_nil, List.append_nil] at this
    · exact .cons hr (ih hts)

/-- A redirection at the end of a command. -/
theorem Derives.redir {ts : List (Tok ω)} {cmd : Cmd ω}
    (h : Derives .exec ts cmd) (hop : op.redir w = some r) :
    Derives .exec (ts ++ [op, .word w]) (.redir cmd r) := by
  cases h with
  | @block ts us cmd rs h hr =>
    have := Derives.block h (hr.snoc hop)
    rw [wrap_snoc] at this
    simpa using this
  | @simple us ts argv rs rs' hr ha hlt =>
    by_cases hts : ts = []
    · subst hts
      cases ha
      have := Derives.simple (hr.snoc hop) .nil hlt
      rw [List.append_nil, List.append_nil, wrap_snoc] at this
      rwa [List.append_nil, List.append_nil]
    · have := Derives.simple hr (ha.snoc hop hts) hlt
      rwa [← List.append_assoc, ← List.append_assoc, wrap_snoc] at this

theorem args_words (argv : List Word) : Args (argv.map fun w => .word (f w)) (argv.map f) [] := by
  induction argv with
  | nil => exact .nil
  | cons w argv ih => exact .cons .nil ih

/-- What the tokens of a tree are derived from, by how tightly it binds. -/
structure Fits (f : Word → ω) (t : Tree) : Prop where
  line : Derives .line (t.toks f) (t.cmd f)
  back : 1 ≤ t.level → ∃ ts n cmd, t.toks f = ts ++ List.replicate n .amp ∧
    t.cmd f = cmd.backs n ∧ Derives .pipe ts cmd
  pipe : 2 ≤ t.level → Derives .pipe (t.toks f) (t.cmd f)
  exec : 3 ≤ t.level → Derives .exec (t.toks f) (t.cmd f)

theorem fits_of_pipe {t : Tree} (h : Derives .pipe (t.toks f) (t.cmd f))
    (he : 3 ≤ t.level → Derives .exec (t.toks f) (t.cmd f)) : Fits f t where
  line := by simpa [Cmd.backs] using Derives.line h 0
  back _ := ⟨t.toks f, 0, t.cmd f, by simp, rfl, h⟩
  pipe _ := h
  exec := he

theorem fits_of_exec {t : Tree} (h : Derives .exec (t.toks f) (t.cmd f)) : Fits f t :=
  fits_of_pipe (.single h) fun _ => h

namespace Fits

variable {t : Tree}

/-- In parentheses a tree is a simple command. -/
theorem block (h : Fits f t) : Derives .exec (.lpar :: (t.toks f ++ [.rpar])) (t.cmd f) :=
  .block h.line .nil

theorem enclose_exec (h : Fits f t) : Derives .exec (enclose (3 ≤ t.level) (t.toks f)) (t.cmd f) := by
  by_cases hl : 3 ≤ t.level
  · simpa [enclose, hl] using h.exec hl
  · simpa [enclose, hl] using h.block

theorem enclose_pipe (h : Fits f t) : Derives .pipe (enclose (2 ≤ t.level) (t.toks f)) (t.cmd f) := by
  by_cases hl : 2 ≤ t.level
  · simpa [enclose, hl] using h.pipe hl
  · simpa [enclose, hl] using Derives.single h.block

theorem enclose_back (h : Fits f t) : ∃ ts n cmd,
    enclose (1 ≤ t.level) (t.toks f) = ts ++ List.replicate n .amp ∧ t.cmd f = cmd.backs n ∧
      Derives .pipe ts cmd := by
  by_cases hl : 1 ≤ t.level
  · simpa [enclose, hl] using h.back hl
  · refine ⟨_, 0, _, ?_, rfl, .single h.block⟩
    simp [enclose, hl]

end Fits

/-- The tokens of a tree are derived from the grammar, with the tree. -/
theorem tree_fits (f : Word → ω) (t : Tree) : Fits f t := by
  induction t with
  | exec argv few =>
    refine fits_of_exec ?_
    have := Derives.simple .nil (args_words (f := f) argv) (by rwa [List.length_map])
    exact this
  | redir cmd out file ih =>
    refine fits_of_exec ?_
    cases out with
    | false => exact ih.enclose_exec.redir rfl
    | true => exact ih.enclose_exec.redir rfl
  | pipe left right ihl ihr =>
    exact fits_of_pipe (.pipe ihl.enclose_exec ihr.enclose_pipe) fun h =>
      absurd h (by simp [Tree.level])
  | list left right ihl ihr =>
    obtain ⟨ts, n, cmd, hts, hcmd, hd⟩ := ihl.enclose_back
    refine ⟨?_, fun h => absurd h (by simp [Tree.level]), fun h => absurd h (by simp [Tree.level]),
      fun h => absurd h (by simp [Tree.level])⟩
    rw [Tree.toks, Tree.cmd, hts, hcmd]
    exact .list hd n ihr.line
  | back cmd ih =>
    obtain ⟨ts, n, cmd', hts, hcmd, hd⟩ := ih.enclose_back
    have htoks : (Tree.back cmd).toks f = ts ++ List.replicate (n + 1) .amp := by
      rw [Tree.toks, hts, List.replicate_succ', List.append_assoc]
    have hcmd' : (Tree.back cmd).cmd f = cmd'.backs (n + 1) := by
      rw [Tree.cmd, hcmd]
      rfl
    refine ⟨?_, fun _ => ⟨ts, n + 1, cmd', htoks, hcmd', hd⟩,
      fun h => absurd h (by simp [Tree.level]), fun h => absurd h (by simp [Tree.level])⟩
    rw [htoks, hcmd']
    exact .line hd (n + 1)

end

/-! ### Words through a function -/

section

variable {α β : Type} (g : α → β)

def Tok.map : Tok α → Tok β
  | .word w => .word (g w)
  | .bar => .bar
  | .lpar => .lpar
  | .rpar => .rpar
  | .semi => .semi
  | .amp => .amp
  | .lt => .lt
  | .gt => .gt
  | .gtgt => .gtgt

def Redir.map (r : Redir α) : Redir β := ⟨g r.file, r.mode, r.fd⟩

def Cmd.map : Cmd α → Cmd β
  | .exec argv => .exec (argv.map g)
  | .redir cmd r => .redir cmd.map (r.map g)
  | .pipe left right => .pipe left.map right.map
  | .list left right => .list left.map right.map
  | .back cmd => .back cmd.map

variable {g}

theorem map_wrap (cmd : Cmd α) (rs : List (Redir α)) :
    (cmd.wrap rs).map g = (cmd.map g).wrap (rs.map (Redir.map g)) := by
  induction rs generalizing cmd with
  | nil => rfl
  | cons r rs ih => exact ih (.redir cmd r)

theorem map_backs (cmd : Cmd α) (n : Nat) : (cmd.backs n).map g = (cmd.map g).backs n := by
  induction n with
  | zero => rfl
  | succ n ih => exact congrArg Cmd.back ih

theorem map_eq_word {t : Tok α} {v : β} (h : t.map g = .word v) : ∃ w, t = .word w ∧ g w = v := by
  cases t with
  | word w => exact ⟨w, rfl, Tok.word.inj h⟩
  | _ => cases h

/-- A token other than a word comes from itself only. -/
theorem map_eq_sym {t : Tok α} {u : Tok α} (hu : ∀ w, u ≠ .word w) (h : t.map g = u.map g) :
    t = u := by
  cases u <;> first | exact absurd rfl (hu _) | (cases t <;> first | rfl | cases h)

theorem map_redir {op : Tok α} {w : α} {r : Redir β} (h : (op.map g).redir (g w) = some r) :
    ∃ r', op.redir w = some r' ∧ r'.map g = r := by
  cases op <;> first | exact ⟨_, rfl, Option.some.inj h⟩ | cases h

theorem Redirs.lift {us : List (Tok β)} {rs : List (Redir β)} (h : Redirs us rs)
    {us' : List (Tok α)} (he : us'.map (Tok.map g) = us) :
    ∃ rs', Redirs us' rs' ∧ rs'.map (Redir.map g) = rs := by
  induction h generalizing us' with
  | nil =>
    rw [List.map_eq_nil_iff.mp he]
    exact ⟨[], .nil, rfl⟩
  | @cons op w r us rs hop hr ih =>
    obtain ⟨op', us₁, rfl, rfl, he₁⟩ := List.map_eq_cons_iff.mp he
    obtain ⟨t, us₂, rfl, hw, he₂⟩ := List.map_eq_cons_iff.mp he₁
    obtain ⟨w', rfl, rfl⟩ := map_eq_word hw
    obtain ⟨rs', hr', rfl⟩ := ih he₂
    obtain ⟨r', hop', rfl⟩ := map_redir hop
    exact ⟨r' :: rs', .cons hop' hr', rfl⟩

theorem Args.lift {ts : List (Tok β)} {argv : List β} {rs : List (Redir β)} (h : Args ts argv rs)
    {ts' : List (Tok α)} (he : ts'.map (Tok.map g) = ts) :
    ∃ argv' rs', Args ts' argv' rs' ∧ argv'.map g = argv ∧ rs'.map (Redir.map g) = rs := by
  induction h generalizing ts' with
  | nil =>
    rw [List.map_eq_nil_iff.mp he]
    exact ⟨[], [], .nil, rfl, rfl⟩
  | @cons w us ts argv rs rs' hr ha ih =>
    obtain ⟨t, ts₁, rfl, hw, he₁⟩ := List.map_eq_cons_iff.mp he
    obtain ⟨w', rfl, rfl⟩ := map_eq_word hw
    obtain ⟨us', ts', rfl, hus, hts⟩ := List.map_eq_append_iff.mp he₁
    obtain ⟨r, hr', rfl⟩ := hr.lift hus
    obtain ⟨argv', r', ha', rfl, rfl⟩ := ih hts
    exact ⟨w' :: argv', r ++ r', .cons hr' ha', rfl, List.map_append⟩

theorem map_eq_amps {n : Nat} {ts : List (Tok α)}
    (h : ts.map (Tok.map g) = List.replicate n .amp) : ts = List.replicate n .amp := by
  rw [List.eq_replicate_iff] at h ⊢
  refine ⟨by rw [← h.1, List.length_map], fun t ht => ?_⟩
  exact map_eq_sym (g := g) (u := .amp) (fun w hw => nomatch hw) (h.2 _ (List.mem_map_of_mem ht))

/-- A derivation of the tokens' images is the image of a derivation. -/
theorem Derives.lift {part : Part} {ts : List (Tok β)} {cmd : Cmd β} (h : Derives part ts cmd)
    {ts' : List (Tok α)} (he : ts'.map (Tok.map g) = ts) :
    ∃ cmd', Derives part ts' cmd' ∧ cmd'.map g = cmd := by
  induction h generalizing ts' with
  | @line ts cmd h n ih =>
    obtain ⟨us, vs, rfl, hus, hvs⟩ := List.map_eq_append_iff.mp he
    obtain ⟨cmd', hd, rfl⟩ := ih hus
    rw [map_eq_amps hvs]
    exact ⟨_, .line hd n, map_backs ..⟩
  | @list ts us cmd cmd₂ h n h' ih ih' =>
    obtain ⟨ts₁, us₁, rfl, hts₁, hus₁⟩ := List.map_eq_append_iff.mp he
    obtain ⟨ts', vs, rfl, hts, hvs⟩ := List.map_eq_append_iff.mp hts₁
    obtain ⟨t, us', rfl, ht, hus⟩ := List.map_eq_cons_iff.mp hus₁
    obtain ⟨cmd', hd, rfl⟩ := ih hts
    obtain ⟨cmd₂', hd', rfl⟩ := ih' hus
    rw [map_eq_amps hvs, map_eq_sym (u := .semi) (fun w hw => nomatch hw) ht]
    exact ⟨_, .list hd n hd', by rw [Cmd.map, map_backs]⟩
  | single h ih =>
    obtain ⟨cmd', hd, rfl⟩ := ih he
    exact ⟨cmd', .single hd, rfl⟩
  | @pipe ts us cmd cmd₂ h h' ih ih' =>
    obtain ⟨ts', us₁, rfl, hts, hus₁⟩ := List.map_eq_append_iff.mp he
    obtain ⟨t, us', rfl, ht, hus⟩ := List.map_eq_cons_iff.mp hus₁
    obtain ⟨cmd', hd, rfl⟩ := ih hts
    obtain ⟨cmd₂', hd', rfl⟩ := ih' hus
    rw [map_eq_sym (u := .bar) (fun w hw => nomatch hw) ht]
    exact ⟨_, .pipe hd hd', rfl⟩
  | @block ts us cmd rs h hr ih =>
    obtain ⟨t, vs, rfl, ht, hvs⟩ := List.map_eq_cons_iff.mp he
    obtain ⟨ts', us₁, rfl, hts, hus₁⟩ := List.map_eq_append_iff.mp hvs
    obtain ⟨t', us', rfl, ht', hus⟩ := List.map_eq_cons_iff.mp hus₁
    obtain ⟨cmd', hd, rfl⟩ := ih hts
    obtain ⟨rs', hr', rfl⟩ := hr.lift hus
    rw [map_eq_sym (u := .lpar) (fun w hw => nomatch hw) ht,
      map_eq_sym (u := .rpar) (fun w hw => nomatch hw) ht']
    exact ⟨_, .block hd hr', map_wrap ..⟩
  | @simple us ts argv rs rs' hr ha hlt =>
    obtain ⟨us', ts', rfl, hus, hts⟩ := List.map_eq_append_iff.mp he
    obtain ⟨r, hr', rfl⟩ := hr.lift hus
    obtain ⟨argv', r', ha', rfl, rfl⟩ := ha.lift hts
    rw [List.length_map] at hlt
    exact ⟨_, .simple hr' ha' hlt, by rw [map_wrap, List.map_append, Cmd.map]⟩

end

/-! ### Text -/

/-- A token as it is written. -/
def Tok.text : Tok Word → List UInt8
  | .word w => w.bytes
  | .bar => [ch '|']
  | .lpar => [ch '(']
  | .rpar => [ch ')']
  | .semi => [ch ';']
  | .amp => [ch '&']
  | .lt => [ch '<']
  | .gt => [ch '>']
  | .gtgt => [ch '>', ch '>']

/-- The text that follows a token does not run into it. -/
def Tok.Apart : Tok Word → List UInt8 → Prop
  | .word _, rest => isWord (char rest 0) = false
  | .gt, rest => char rest 0 ≠ ch '>'
  | _, _ => True

/-- The text spells the tokens: any whitespace around them, and some where it is needed. -/
inductive Spells : List (Tok Word) → List UInt8 → Prop where
  | nil {ws : List UInt8} (hws : ∀ c ∈ ws, strchr whitespace c = true) : Spells [] ws
  | cons {ws : List UInt8} {t : Tok Word} {ts : List (Tok Word)} {rest : List UInt8}
      (hws : ∀ c ∈ ws, strchr whitespace c = true) (hsep : t.Apart rest) (h : Spells ts rest) :
      Spells (t :: ts) (ws ++ (t.text ++ rest))

/-- The word at a slice of the line. -/
def slice (line : List UInt8) (w : Slice) : List UInt8 := (line.drop w.1).take (w.2 - w.1)

theorem char_append (l l' : List UInt8) (k : Nat) : char (l ++ l') (l.length + k) = char l' k := by
  rw [char, char, List.getD_eq_getElem?_getD, List.getD_eq_getElem?_getD,
    List.getElem?_append_right (Nat.le_add_right ..), Nat.add_sub_cancel_left]

theorem char_mem {l : List UInt8} {k : Nat} (h : k < l.length) : char l k ∈ l := by
  rw [char, List.getD_eq_getElem?_getD, List.getElem?_eq_getElem h]
  exact List.getElem_mem h

theorem char_append_left {l l' : List UInt8} {k : Nat} (h : k < l.length) :
    char (l ++ l') k = char l k := by
  simp [char, List.getD_eq_getElem?_getD, List.getElem?_append_left h]

theorem ends_of_plain {line : List UInt8} (h : 0 ∉ line) : Ends line line.length where
  inner j hj e := h (e ▸ char_mem hj)
  last := by simp [char]

theorem whitespace_ne_zero {c : UInt8} (h : strchr whitespace c = true) : c ≠ 0 := by
  rintro rfl
  exact absurd h (by decide)

theorem text_ne_zero (t : Tok Word) : 0 ∉ t.text := by
  cases t with
  | word w =>
    intro h
    exact absurd (w.plain 0 h) (by decide)
  | _ => simp only [Tok.text]; decide

theorem Spells.plain {ts : List (Tok Word)} {text : List UInt8} (h : Spells ts text) :
    0 ∉ text := by
  induction h with
  | nil hws => exact fun h => whitespace_ne_zero (hws 0 h) rfl
  | @cons ws t ts rest hws _ _ ih =>
    rw [List.mem_append, List.mem_append]
    rintro (h | h | h)
    · exact whitespace_ne_zero (hws 0 h) rfl
    · exact text_ne_zero t h
    · exact ih h

/-- A token begins with a character that is not whitespace. -/
theorem text_head (t : Tok Word) : t.text ≠ [] ∧ strchr whitespace (char t.text 0) = false := by
  cases t with
  | word w =>
    have hpos : 0 < w.bytes.length := List.length_pos_iff.mpr w.nonempty
    have := w.plain _ (char_mem hpos)
    simp only [isWord, Bool.and_eq_true, Bool.not_eq_true'] at this
    exact ⟨w.nonempty, this.1.2⟩
  | _ => exact ⟨by simp [Tok.text], by simp only [Tok.text]; decide⟩

section

variable {line p rest : List UInt8} {i : Nat}

/-- Whitespace is skipped. -/
theorem skip_text {ws : List UInt8} (hline : line = p ++ (ws ++ rest))
    (hws : ∀ c ∈ ws, strchr whitespace c = true)
    (hrest : rest ≠ [] → strchr whitespace (char rest 0) = false) :
    skip line line.length p.length = p.length + ws.length := by
  have hlen : line.length = p.length + (ws.length + rest.length) := by
    rw [hline, List.length_append, List.length_append]
  refine advance_eq (by omega) (Nat.le_add_right ..) (by omega) (fun j h₁ h₂ => ?_) fun h => ?_
  · obtain ⟨k, rfl⟩ := Nat.exists_eq_add_of_le h₁
    rw [hline, char_append, char_append_left (by omega)]
    exact hws _ (char_mem (by omega))
  have hne : rest ≠ [] := by
    rintro rfl
    rw [List.length_nil] at hlen
    omega
  have := char_append (p ++ ws) rest 0
  rw [List.append_assoc, ← hline, List.length_append, Nat.add_zero] at this
  rw [this]
  exact hrest hne

/-- `gettoken` at a token that is written there. -/
theorem gettoken_text {t : Tok Word} (hline : line = p ++ (t.text ++ rest)) (hpl : 0 ∉ line)
    (hs : skip line line.length i = p.length) (hsep : t.Apart rest) :
    ∃ t', (gettoken line line.length i).tok = some t' ∧
      (gettoken line line.length i).next = skip line line.length (p ++ t.text).length ∧
      t'.map (slice line) = t.map Word.bytes := by
  have hat : ∀ k, char line (p.length + k) = char (t.text ++ rest) k := fun k => by
    rw [hline, char_append]
  have hat0 : char line p.length = char (t.text ++ rest) 0 := hat 0
  have one : ∀ c ∈ ['|', '(', ')', ';', '&', '<'], t = .ofChar c → t.text = [ch c] →
      (∃ t', (gettoken line line.length i).tok = some t' ∧
        (gettoken line line.length i).next = skip line line.length (p ++ t.text).length ∧
        t'.map (slice line) = t.map Word.bytes) := by
    intro c hc ht htext
    rw [htext] at hat0
    rw [gettoken_one hs hc hat0, htext, List.length_append]
    refine ⟨.ofChar c, (ofChar_spec (ω := Slice) c hc _ _ _).1, rfl, ?_⟩
    subst ht
    simp only [List.mem_cons, List.not_mem_nil, or_false] at hc
    rcases hc with rfl | rfl | rfl | rfl | rfl | rfl <;> rfl
  cases t with
  | word w =>
    have hpos : 0 < w.bytes.length := List.length_pos_iff.mpr w.nonempty
    have hplain : ∀ k < w.bytes.length, isWord (char line (p.length + k)) = true := by
      intro k hk
      rw [hat k]
      change isWord (char (w.bytes ++ rest) k) = true
      rw [char_append_left hk]
      exact w.plain _ (char_mem hk)
    have h0 := hplain 0 hpos
    simp only [isWord, Bool.and_eq_true, Bool.not_eq_true', bne_iff_ne] at h0 hplain
    have hlen : line.length = p.length + (w.bytes.length + rest.length) := by
      rw [hline, List.length_append, List.length_append]
      rfl
    have hend : wordEnd line line.length p.length = p.length + w.bytes.length := by
      refine advance_eq (by omega) (Nat.le_add_right ..) (by omega) (fun j h₁ h₂ => ?_) fun h => ?_
      · obtain ⟨k, rfl⟩ := Nat.exists_eq_add_of_le h₁
        have := hplain k (by omega)
        rw [this.1.2, this.2]
        rfl
      · have hne := (ends_of_plain hpl).inner _ h
        have hchar : char line (p.length + w.bytes.length) = char rest 0 := by
          rw [hat]
          exact char_append w.bytes rest 0
        rw [hchar] at hne ⊢
        have hsep : isWord (char rest 0) = false := hsep
        simpa [isWord, hne] using hsep
    rw [gettoken_word hs h0.1.1 h0.2, hend, List.length_append]
    refine ⟨.word (p.length, p.length + w.bytes.length), rfl, rfl, ?_⟩
    have hslice : slice line (p.length, p.length + w.bytes.length) = w.bytes := by
      rw [slice, hline, List.drop_left, Nat.add_sub_cancel_left]
      exact List.take_left
    exact congrArg Tok.word hslice
  | gt =>
    have hat1 : char line (p.length + 1) = char rest 0 := (hat 1).trans (char_append [_] rest 0)
    rw [gettoken_gt hs hat0 (by rw [hat1]; exact hsep), List.length_append]
    exact ⟨.gt, rfl, rfl, rfl⟩
  | gtgt =>
    rw [gettoken_gtgt hs hat0 (hat 1), List.length_append]
    exact ⟨.gtgt, rfl, rfl, rfl⟩
  | bar => exact one '|' (by decide) rfl rfl
  | lpar => exact one '(' (by decide) rfl rfl
  | rpar => exact one ')' (by decide) rfl rfl
  | semi => exact one ';' (by decide) rfl rfl
  | amp => exact one '&' (by decide) rfl rfl
  | lt => exact one '<' (by decide) rfl rfl

/-- The tokens of a text are those that it spells. -/
theorem spells_tokens {ts : List (Tok Word)} {text : List UInt8} (h : Spells ts text)
    (hline : line = p ++ text) (hpl : 0 ∉ line) :
    ∃ ts', Tokens line line.length p.length ts' ∧
      ts'.map (Tok.map (slice line)) = ts.map (Tok.map Word.bytes) := by
  induction h generalizing p with
  | @nil ws hws =>
    have hs : skip line line.length p.length = p.length + ws.length :=
      skip_text (show line = p ++ (ws ++ []) by rw [hline, List.append_nil]) hws
        fun h => absurd rfl h
    have hlen : p.length + ws.length = line.length := by rw [hline, List.length_append]
    have hc : char line (p.length + ws.length) = 0 := by
      rw [hlen]
      exact (ends_of_plain hpl).last
    exact ⟨[], .done (by omega) (by rw [gettoken_end hs hc]; rfl), rfl⟩
  | @cons ws t ts rest hws hsep h ih =>
    obtain ⟨hne, hhead⟩ := text_head t
    have hs : skip line line.length p.length = (p ++ ws).length := by
      rw [List.length_append]
      refine skip_text hline hws fun _ => ?_
      rw [char_append_left (List.length_pos_iff.mpr hne)]
      exact hhead
    rw [← List.append_assoc] at hline
    obtain ⟨t', htok, hnext, hmap⟩ := gettoken_text hline hpl hs hsep
    obtain ⟨ts', hts, hmap'⟩ := ih (hline.trans (List.append_assoc ..).symm)
    refine ⟨t' :: ts', .more ?_ htok ?_, ?_⟩
    · rw [hline]
      simp
    · rw [hnext]
      exact hts.skip
    · rw [List.map_cons, List.map_cons, hmap, hmap']

end

/-! ### The words in the buffer -/

section

variable {α β : Type}

/-- The words of a tree. -/
def Cmd.words : Cmd α → List α
  | .exec argv => argv
  | .redir cmd r => cmd.words ++ [r.file]
  | .pipe left right => left.words ++ right.words
  | .list left right => left.words ++ right.words
  | .back cmd => cmd.words

theorem Cmd.map_congr {g g' : α → β} (cmd : Cmd α) (h : ∀ w ∈ cmd.words, g w = g' w) :
    cmd.map g = cmd.map g' := by
  induction cmd with
  | exec argv => exact congrArg Cmd.exec (List.map_congr_left h)
  | redir cmd r ih =>
    rw [Cmd.map, Cmd.map, ih fun w hw => h w (List.mem_append_left _ hw), Redir.map, Redir.map,
      h r.file (List.mem_append_right _ (List.mem_singleton_self _))]
  | pipe left right ihl ihr =>
    rw [Cmd.map, Cmd.map, ihl fun w hw => h w (List.mem_append_left _ hw),
      ihr fun w hw => h w (List.mem_append_right _ hw)]
  | list left right ihl ihr =>
    rw [Cmd.map, Cmd.map, ihl fun w hw => h w (List.mem_append_left _ hw),
      ihr fun w hw => h w (List.mem_append_right _ hw)]
  | back cmd ih => rw [Cmd.map, Cmd.map, ih h]

theorem words_wrap (cmd : Cmd α) (rs : List (Redir α)) :
    (cmd.wrap rs).words = cmd.words ++ rs.map Redir.file := by
  induction rs generalizing cmd with
  | nil => exact (List.append_nil _).symm
  | cons r rs ih =>
    change ((Cmd.redir cmd r).wrap rs).words = _
    rw [ih, Cmd.words, List.append_assoc]
    rfl

theorem words_backs (cmd : Cmd α) (n : Nat) : (cmd.backs n).words = cmd.words := by
  induction n with
  | zero => rfl
  | succ n ih => exact ih

theorem Redirs.words {us : List (Tok α)} {rs : List (Redir α)} (h : Redirs us rs) :
    ∀ w ∈ rs.map Redir.file, Tok.word w ∈ us := by
  induction h with
  | nil => exact fun w hw => nomatch hw
  | @cons op w r us rs hop hr ih =>
    have hfile : r.file = w := by cases op <;> cases hop <;> rfl
    intro v hv
    rw [List.map_cons, hfile] at hv
    rcases List.mem_cons.mp hv with rfl | hv
    · simp
    · exact List.mem_cons_of_mem _ (List.mem_cons_of_mem _ (ih v hv))

theorem Args.words {ts : List (Tok α)} {argv : List α} {rs : List (Redir α)}
    (h : Args ts argv rs) : ∀ w ∈ argv ++ rs.map Redir.file, Tok.word w ∈ ts := by
  induction h with
  | nil => exact fun w hw => nomatch hw
  | @cons w us ts argv rs rs' hr ha ih =>
    intro v hv
    simp only [List.cons_append, List.mem_cons, List.mem_append, List.map_append] at hv ih ⊢
    rcases hv with rfl | hv | hv | hv
    · exact .inl rfl
    · exact .inr (.inr (ih v (.inl hv)))
    · exact .inr (.inl (hr.words v hv))
    · exact .inr (.inr (ih v (.inr hv)))

/-- The words of the tree are among the tokens. -/
theorem Derives.words {part : Part} {ts : List (Tok α)} {cmd : Cmd α} (h : Derives part ts cmd) :
    ∀ w ∈ cmd.words, Tok.word w ∈ ts := by
  induction h with
  | @line ts cmd h n ih =>
    intro w hw
    rw [words_backs] at hw
    exact List.mem_append_left _ (ih w hw)
  | @list ts us cmd cmd' h n h' ih ih' =>
    intro w hw
    simp only [Cmd.words, words_backs, List.mem_append, List.mem_cons] at hw ⊢
    rcases hw with hw | hw
    · exact .inl (.inl (ih w hw))
    · exact .inr (.inr (ih' w hw))
  | single h ih => exact ih
  | @pipe ts us cmd cmd' h h' ih ih' =>
    intro w hw
    simp only [Cmd.words, List.mem_append, List.mem_cons] at hw ⊢
    rcases hw with hw | hw
    · exact .inl (ih w hw)
    · exact .inr (.inr (ih' w hw))
  | @block ts us cmd rs h hr ih =>
    intro w hw
    simp only [words_wrap, List.mem_append, List.mem_cons] at hw ⊢
    rcases hw with hw | hw
    · exact .inr (.inl (ih w hw))
    · exact .inr (.inr (.inr (hr.words w hw)))
  | @simple us ts argv rs rs' hr ha hlt =>
    intro w hw
    have ha := ha.words w
    simp only [words_wrap, Cmd.words, List.map_append, List.mem_append] at hw ha ⊢
    rcases hw with hw | hw | hw
    · exact .inr (ha (.inl hw))
    · exact .inl (hr.words w hw)
    · exact .inr (ha (.inr hw))

end

section

variable {line : List UInt8} {es i : Nat} {ts : List (Tok Slice)} {w : Slice}

/-- A slice is a whole word of the line. -/
structure Whole (line : List UInt8) (w : Slice) : Prop where
  le : w.1 ≤ w.2
  inside : ∀ j, w.1 ≤ j → j < w.2 → isWord (char line j) = true
  behind : isWord (char line w.2) = false

theorem Ends.whole (hE : Ends line es) (hi : i ≤ es)
    (h : (gettoken line es i).tok = some (.word w)) : Whole line w := by
  rcases hE.found hi with ⟨hn, -⟩ | ⟨t, ht, -, hw, -, -, h0, hsym⟩
  · rw [hn] at h
    cases h
  cases ht.symm.trans h
  obtain ⟨-, hs, -, -⟩ := skip_spec line hi
  obtain ⟨h₁, h₂, h₃, h₄⟩ := wordEnd_scan line hs
  have hw := hw w rfl
  rw [gettoken_word rfl h0 hsym] at hw
  subst hw
  refine ⟨h₁, fun j hj hlt => ?_, ?_⟩
  · have hne := hE.inner j (Nat.lt_of_lt_of_le hlt h₂)
    have := h₃ j hj hlt
    simpa [isWord, hne] using this
  · rcases Nat.eq_or_lt_of_le h₂ with he | hlt
    · rw [he, hE.last]
      rfl
    · rw [isWord, Bool.and_assoc, h₄ hlt, Bool.and_false]

theorem Tokens.whole (hE : Ends line es) (h : Tokens line es i ts) (hw : .word w ∈ ts) :
    Whole line w := by
  induction h with
  | done _ _ => cases hw
  | more hi h hs ih =>
    rcases List.mem_cons.mp hw with rfl | hw
    · exact hE.whole hi h
    · exact ih hw

/-! ### `nulterminate` -/

theorem char_set (line : List UInt8) (e j : Nat) :
    char (line.set e 0) j = if e = j then 0 else char line j := by
  rw [char, char, List.getD_eq_getElem?_getD, List.getD_eq_getElem?_getD, List.getElem?_set]
  split
  · split <;> rfl
  · rfl

theorem char_sets (ws : List Slice) (line : List UInt8) (j : Nat) :
    char (ws.foldl (fun line w => line.set w.2 0) line) j =
      if j ∈ ws.map Prod.snd then 0 else char line j := by
  induction ws generalizing line with
  | nil => rfl
  | cons w ws ih =>
    rw [List.foldl_cons, ih, char_set, List.map_cons]
    simp only [List.mem_cons]
    by_cases h₁ : j ∈ ws.map Prod.snd
    · simp [h₁]
    · by_cases h₂ : w.2 = j
      · simp [h₂]
      · simp [h₁, h₂, Ne.symm h₂]

/-- `nulterminate` cuts behind each word of the tree. -/
theorem nulterminate_eq (line : List UInt8) (cmd : Cmd Slice) :
    nulterminate line cmd = cmd.words.foldl (fun line w => line.set w.2 0) line := by
  induction cmd generalizing line with
  | exec argv => rfl
  | redir cmd r ih => rw [nulterminate, ih, Cmd.words, List.foldl_append]; rfl
  | pipe left right ihl ihr => rw [nulterminate, ihl, ihr, Cmd.words, List.foldl_append]
  | list left right ihl ihr => rw [nulterminate, ihl, ihr, Cmd.words, List.foldl_append]
  | back cmd ih => exact ih line

/-- The C string at an index of the buffer. -/
def cstring (buf : List UInt8) (q : Nat) : List UInt8 := (buf.drop q).takeWhile (· != 0)

theorem drop_of_char {l : List UInt8} {q : Nat} (h : char l q ≠ 0) :
    l.drop q = char l q :: l.drop (q + 1) := by
  have hlt : q < l.length := by
    by_contra hge
    rw [char, List.getD_eq_getElem?_getD, List.getElem?_eq_none (Nat.le_of_not_lt hge)] at h
    exact h rfl
  rw [List.drop_eq_getElem_cons hlt, char, List.getD_eq_getElem?_getD, List.getElem?_eq_getElem hlt]
  rfl

/-- The C string at `q` of a buffer that agrees with the line up to `q + n` and has a NUL there. -/
theorem cstring_eq {buf : List UInt8} {n q : Nat}
    (hchar : ∀ j, q ≤ j → j < q + n → char line j ≠ 0 ∧ char buf j = char line j)
    (hend : char buf (q + n) = 0) : cstring buf q = (line.drop q).take n := by
  induction n generalizing q with
  | zero =>
    rw [List.take_zero, cstring]
    cases hd : buf.drop q with
    | nil => rfl
    | cons c l =>
      have : char buf q = c := by
        rw [char, List.getD_eq_getElem?_getD, ← Nat.add_zero q, ← List.getElem?_drop, hd]
        rfl
      rw [List.takeWhile_cons_of_neg]
      rw [← this]
      simpa using hend
  | succ n ih =>
    obtain ⟨hne, he⟩ := hchar q (Nat.le_refl q) (by omega)
    have := ih (q := q + 1) (fun j h₁ h₂ => hchar j (by omega) (by omega))
      (by rwa [Nat.add_assoc, Nat.add_comm 1])
    rw [cstring, drop_of_char (by rwa [he]), drop_of_char hne, List.take_succ_cons, ← this, he,
      List.takeWhile_cons_of_pos (by simpa using hne)]
    rfl

/-- The words that `nulterminate` cuts out are those of the line. -/
theorem cstring_nulterminate {cmd : Cmd Slice} (h : ∀ w ∈ cmd.words, Whole line w)
    (hw : w ∈ cmd.words) : cstring (nulterminate line cmd) w.1 = slice line w := by
  have hwhole := h w hw
  have hchar := char_sets cmd.words line
  rw [← nulterminate_eq] at hchar
  refine cstring_eq (fun j h₁ h₂ => ?_) ?_
  · have hj := hwhole.inside j h₁ (by have := hwhole.le; omega)
    refine ⟨?_, ?_⟩
    · intro e
      rw [e] at hj
      cases hj
    rw [hchar, if_neg]
    intro hm
    obtain ⟨v, hv, rfl⟩ := List.mem_map.mp hm
    rw [(h v hv).behind] at hj
    cases hj
  · rw [Nat.add_sub_cancel' hwhole.le, hchar, if_pos (List.mem_map_of_mem hw)]

end

/-! ### The round trip -/

theorem strlen_eq {line : List UInt8} (h : 0 ∉ line) : strlen line = line.length :=
  (ends_strlen line).eq_end_of (ends_of_plain h)

theorem map_enclose {α β : Type} {g : α → β} (alone : Bool) (ts : List (Tok α)) :
    (enclose alone ts).map (Tok.map g) = enclose alone (ts.map (Tok.map g)) := by
  cases alone with
  | true => rfl
  | false => simp [enclose, Tok.map]

theorem toks_map {ω : Type} (g : Word → ω) (t : Tree) : (t.toks id).map (Tok.map g) = t.toks g := by
  induction t with
  | exec argv few => simp [Tree.toks, Tok.map]
  | redir cmd out file ih =>
    rw [Tree.toks, Tree.toks, List.map_append, map_enclose, ih]
    cases out <;> rfl
  | pipe left right ihl ihr =>
    rw [Tree.toks, Tree.toks, List.map_append, List.map_cons, map_enclose, map_enclose, ihl, ihr]
    rfl
  | list left right ihl ihr =>
    rw [Tree.toks, Tree.toks, List.map_append, List.map_cons, map_enclose, ihl, ihr]
    rfl
  | back cmd ih =>
    rw [Tree.toks, Tree.toks, List.map_append, map_enclose, ih]
    rfl

/-- **The round trip.**  Every text that spells a tree is parsed to the tree: its words are the slices
of the text, and after `nulterminate` they are the C strings in the buffer. -/
theorem print_roundtrip (t : Tree) {text : List UInt8} (h : Spells (t.toks id) text) :
    ∃ cmd buf, parsecmd text = .ok (cmd, buf) ∧ cmd.map (slice text) = t.cmd Word.bytes ∧
      cmd.map (fun w => cstring buf w.1) = t.cmd Word.bytes := by
  have hE := ends_strlen text
  have hlen := strlen_eq h.plain
  obtain ⟨ts, hts, hmap⟩ : ∃ ts, Tokens text text.length 0 ts ∧ ts.map (Tok.map (slice text)) = _ :=
    spells_tokens (p := []) h rfl h.plain
  rw [toks_map] at hmap
  obtain ⟨cmd, hd, hcmd⟩ := (tree_fits Word.bytes t).line.lift hmap
  rw [← hlen] at hts
  refine ⟨cmd, nulterminate text cmd, parsecmd_accepts hts hd, hcmd, ?_⟩
  have hwhole : ∀ w ∈ cmd.words, Whole text w := fun w hw => hts.whole hE (hd.words w hw)
  rw [← hcmd]
  exact cmd.map_congr fun w hw => cstring_nulterminate hwhole hw

theorem Spells.blank {ts : List (Tok Word)} {text : List UInt8} {c : UInt8} (h : Spells ts text)
    (hc : strchr whitespace c = true) : Spells ts (c :: text) := by
  cases h with
  | nil hws => exact .nil (List.forall_mem_cons.mpr ⟨hc, hws⟩)
  | cons hws hsep h => exact .cons (List.forall_mem_cons.mpr ⟨hc, hws⟩) hsep h

/-- The tokens, with a blank behind each of them. -/
def spaced : List (Tok Word) → List UInt8
  | [] => []
  | t :: ts => t.text ++ ch ' ' :: spaced ts

/-- Every sequence of tokens can be spelled. -/
theorem spells_spaced (ts : List (Tok Word)) : Spells ts (spaced ts) := by
  induction ts with
  | nil => exact .nil fun c hc => nomatch hc
  | cons t ts ih =>
    have hsep : t.Apart (ch ' ' :: spaced ts) := by
      cases t with
      | word w => exact (by decide : isWord (ch ' ') = false)
      | gt => exact (by decide : ch ' ' ≠ ch '>')
      | _ => trivial
    have h : Spells (t :: ts) ([] ++ (t.text ++ ch ' ' :: spaced ts)) :=
      .cons (fun c hc => nomatch hc) hsep (ih.blank (by decide))
    exact h

/-- A word of one letter. -/
def letter (c : Char) (h : isWord (ch c) = true) : Word :=
  ⟨[ch c], List.cons_ne_nil _ _, fun d hd => by rwa [List.mem_singleton.mp hd]⟩

/-- `( a ; b ) | c > f &` -/
def sampleTree : Tree :=
  .back (.pipe
    (.list (.exec [letter 'a' (by decide)] (by decide)) (.exec [letter 'b' (by decide)] (by decide)))
    (.redir (.exec [letter 'c' (by decide)] (by decide)) true (letter 'f' (by decide))))

theorem print_roundtrip_sample :
    ∃ cmd buf, parsecmd (['(', ' ', 'a', ' ', ';', ' ', 'b', ' ', ')', ' ', '|', ' ', 'c', ' ', '>',
        ' ', 'f', ' ', '&', ' '].map ch) = .ok (cmd, buf) ∧
      cmd.map (fun w => cstring buf w.1) = .back (.pipe
        (.list (.exec [[ch 'a']]) (.exec [[ch 'b']]))
        (.redir (.exec [[ch 'c']]) ⟨[ch 'f'], O_WRONLY ||| O_CREATE, 1⟩)) := by
  obtain ⟨cmd, buf, h, -, hcmd⟩ := print_roundtrip sampleTree (spells_spaced _)
  exact ⟨cmd, buf, h, hcmd⟩

end Xv6.Sh
