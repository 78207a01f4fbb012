import Wattle.Proofs.Printing

/-!
# Heights of expressions

The limit of open expressions does not bound the height of a tree, as operators of one level group
to the left without opening one (`SourceFile.heights_unbounded`).  It bounds `Expr.levels`, where
the operators of such a chain count as one: each open expression has at most five levels, one for
every step from a comparison to a primary expression (`Derives.low`).  Hence only long chains make
high trees (`SourceFile.height_of_parse`).

* `Expr.height_add_le`        a tree of few levels with short chains is not high;
* `Derives.low`               derived expressions have few levels;
* `onesFile_parse`            a chain of any length in an accepted program.
-/

namespace Wattle

/-! ### maxima -/

section
variable {l : List Nat} {n : Nat}

theorem le_foldr_max (h : n ∈ l) : n ≤ l.foldr max 0 := by
  induction l with
  | nil => cases h
  | cons m l ih =>
    obtain rfl | h := List.mem_cons.1 h
    · exact Nat.le_max_left ..
    · exact Nat.le_trans (ih h) (Nat.le_max_right ..)

theorem foldr_max_le (h : ∀ m ∈ l, m ≤ n) : l.foldr max 0 ≤ n := by
  induction l with
  | nil => exact Nat.zero_le n
  | cons m l ih =>
    obtain ⟨hm, hl⟩ := List.forall_mem_cons.1 h
    exact Nat.max_le.2 ⟨hm, ih hl⟩

end

/-! ### parts -/

namespace Expr

theorem parts_subset {e a : Expr} (h : a ∈ e.children) : a.parts ⊆ e.parts := by
  intro b hb
  rw [parts_eq_children]
  exact List.mem_cons_of_mem _ (List.mem_flatMap.2 ⟨a, h, hb⟩)

/-- what does not grow towards the children is largest at the root -/
theorem le_of_mem_parts {m : Expr → Nat} (hm : ∀ e, ∀ a ∈ e.children, m a ≤ m e) (e : Expr) :
    ∀ a ∈ e.parts, m a ≤ m e := by
  induction e using induction_children with
  | h e ih =>
    rw [parts_eq_children]
    refine List.forall_mem_cons.2 ⟨Nat.le_refl _, fun a ha => ?_⟩
    obtain ⟨b, hb, ha⟩ := List.mem_flatMap.1 ha
    exact Nat.le_trans (ih b hb a ha) (hm e b hb)

/-! ### heights, levels and chains -/

mutual

def height : Expr → Nat
  | number _ _ _ | var _ _ _ => 1
  | neg operand _ _ => operand.height + 1
  | binary _ left right _ _ => max left.height right.height + 1
  | assign _ value _ _ => value.height + 1
  | call _ args _ _ => argsHeight args + 1

def argsHeight : List Expr → Nat
  | [] => 0
  | e :: es => max e.height (argsHeight es)

end

/-- the level of the operator at the root -/
def chain? : Expr → Option Chain
  | binary op _ _ _ _ => some op.chain
  | _ => none

/-- the number of the operators of one level at the root and down the left operands -/
def chainLength : Expr → Nat
  | binary op left _ _ _ => if left.chain? = some op.chain then left.chainLength + 1 else 1
  | _ => 0

mutual

/-- the height, with the operators of a chain counted as one -/
def levels : Expr → Nat
  | number _ _ _ | var _ _ _ => 1
  | neg operand _ _ => operand.levels + 1
  | binary op left right _ _ =>
    max (if left.chain? = some op.chain then left.levels else left.levels + 1) (right.levels + 1)
  | assign _ value _ _ => value.levels + 1
  | call _ args _ _ => argsLevels args + 1

def argsLevels : List Expr → Nat
  | [] => 0
  | e :: es => max e.levels (argsLevels es)

end

/-- the length of the longest chain in an expression -/
def longestChain (e : Expr) : Nat := (e.parts.map chainLength).foldr max 0

theorem argsHeight_eq (es : List Expr) : argsHeight es = (es.map height).foldr max 0 := by
  induction es with
  | nil => rfl
  | cons e es ih => rw [argsHeight, ih, List.map_cons, List.foldr_cons]

theorem argsLevels_eq (es : List Expr) : argsLevels es = (es.map levels).foldr max 0 := by
  induction es with
  | nil => rfl
  | cons e es ih => rw [argsLevels, ih, List.map_cons, List.foldr_cons]

theorem height_lt_of_child (e : Expr) : ∀ a ∈ e.children, a.height < e.height := by
  intro a ha
  cases e with
  | number | var => cases ha
  | neg | assign =>
    obtain rfl := List.mem_singleton.1 ha
    exact Nat.lt_succ_self _
  | binary op left right =>
    rw [height]
    obtain rfl | ha := List.mem_cons.1 ha
    · omega
    · obtain rfl := List.mem_singleton.1 ha
      omega
  | call callee args =>
    rw [height, argsHeight_eq]
    exact Nat.lt_succ_of_le (le_foldr_max (List.mem_map_of_mem ha))

theorem levels_le_of_child (e : Expr) : ∀ a ∈ e.children, a.levels ≤ e.levels := by
  intro a ha
  cases e with
  | number | var => cases ha
  | neg | assign =>
    obtain rfl := List.mem_singleton.1 ha
    exact Nat.le_succ _
  | binary op left right =>
    rw [levels]
    obtain rfl | ha := List.mem_cons.1 ha
    · split <;> omega
    · obtain rfl := List.mem_singleton.1 ha
      omega
  | call callee args =>
    rw [levels, argsLevels_eq]
    exact Nat.le_succ_of_le (le_foldr_max (List.mem_map_of_mem ha))

theorem chainLength_pos {e : Expr} {l : Chain} (h : e.chain? = some l) : 0 < e.chainLength := by
  cases e with
  | binary =>
    rw [chainLength]
    split <;> omega
  | _ => cases h

/-! ### short chains -/

theorem chainLength_lt_height (e : Expr) : e.chainLength < e.height := by
  induction e using induction_children with
  | h e ih =>
    cases e with
    | binary op left right =>
      have hleft := ih left List.mem_cons_self
      rw [chainLength, height]
      split <;> omega
    | _ => exact Nat.succ_pos _

theorem longestChain_lt_height (e : Expr) : e.longestChain < e.height := by
  have hparts := le_of_mem_parts (fun e a ha => Nat.le_of_lt (height_lt_of_child e a ha)) e
  have hall : ∀ n ∈ e.parts.map chainLength, n ≤ e.height - 1 := by
    intro n hn
    obtain ⟨a, ha, rfl⟩ := List.mem_map.1 hn
    have hchain := a.chainLength_lt_height
    have hheight := hparts a ha
    omega
  have hlongest := foldr_max_le hall
  have hpos := e.chainLength_lt_height
  rw [longestChain]
  omega

/-- **A tree of few levels with short chains is not high.**  A chain adds at most its length to one
of its levels. -/
theorem height_add_le {c : Nat} (hpos : 0 < c) (e : Expr)
    (hc : ∀ a ∈ e.parts, a.chainLength ≤ c) :
    e.height + c ≤ e.levels * c + max 1 e.chainLength := by
  induction e using induction_children with
  | h e ih =>
    have hchildren : ∀ a ∈ e.children, a.height ≤ a.levels * c := by
      intro a ha
      have hsub := parts_subset ha
      have hheight := ih a ha fun b hb => hc b (hsub hb)
      have hchain := hc a (hsub (by rw [parts_eq_children]; exact List.mem_cons_self))
      omega
    cases e with
    | number | var => simp only [height, levels, chainLength]; omega
    | neg operand | assign _ operand =>
      have hoperand := hchildren operand List.mem_cons_self
      simp only [height, levels, chainLength, Nat.succ_mul]
      omega
    | call callee args =>
      have hargs : argsHeight args ≤ argsLevels args * c := by
        rw [argsHeight_eq, argsLevels_eq]
        refine foldr_max_le fun n hn => ?_
        obtain ⟨a, ha, rfl⟩ := List.mem_map.1 hn
        exact Nat.le_trans (hchildren a ha)
          (Nat.mul_le_mul_right c (le_foldr_max (List.mem_map_of_mem ha)))
      simp only [height, levels, chainLength, Nat.succ_mul]
      omega
    | binary op left right type span =>
      have hmem : left ∈ (binary op left right type span).children := List.mem_cons_self
      have hleft := ih left hmem fun b hb => hc b (parts_subset hmem hb)
      have hleft' := hchildren left hmem
      have hright := hchildren right (List.mem_cons_of_mem _ List.mem_cons_self)
      rw [height, levels, chainLength]
      split
      · next hchain =>
        have hone := chainLength_pos hchain
        have hl := Nat.mul_le_mul_right c (Nat.le_max_left left.levels (right.levels + 1))
        have hr := Nat.mul_le_mul_right c (Nat.le_max_right left.levels (right.levels + 1))
        rw [Nat.succ_mul] at hr
        omega
      · have hl := Nat.mul_le_mul_right c (Nat.le_max_left (left.levels + 1) (right.levels + 1))
        have hr := Nat.mul_le_mul_right c (Nat.le_max_right (left.levels + 1) (right.levels + 1))
        rw [Nat.succ_mul] at hl hr
        omega

theorem height_le (e : Expr) : e.height ≤ e.levels * max 1 e.longestChain := by
  have hchains : ∀ a ∈ e.parts, a.chainLength ≤ max 1 e.longestChain := fun a ha =>
    Nat.le_trans (le_foldr_max (List.mem_map_of_mem ha)) (Nat.le_max_right ..)
  have hroot := hchains e (by rw [parts_eq_children]; exact List.mem_cons_self)
  have hheight := e.height_add_le (Nat.le_max_left 1 e.longestChain) hchains
  omega

end Expr

/-! ### few levels -/

theorem Expr.levels_withSpan (e : Expr) (span : Span) : (e.withSpan span).levels = e.levels := by
  cases e <;> rfl

/-- the levels that an expression may have beside those of the open ones -/
def Level.bound : Level → Nat
  | expression => 0
  | primary => 1
  | unary => 2
  | chain .product => 3
  | chain .sum => 4
  | chain .comparison | assignment => 5

theorem Chain.bound_operand (l : Chain) : l.operand.bound + 1 = (Level.chain l).bound := by
  cases l <;> rfl

/-- what a derivation with `e` open expressions at most gives has few levels; a chain has one less
if it is just an operand -/
def Nonterminal.Low (e : Nat) : (n : Nonterminal) → n.Value → Prop
  | expr level, a => Expr.levels a ≤ 5 * e + level.bound ∧
      ∀ l, level = .chain l → Expr.chain? a ≠ some l → Expr.levels a ≤ 5 * e + l.operand.bound
  | param, _ => True
  | row n, as | items n, as => ∀ a ∈ as, n.Low e a
  | statement, s | conditional, s => ∀ b ∈ Stmt.nested s, b.expr.levels ≤ 5 * e
  | statements, ss => ∀ b ∈ List.flatMap Stmt.nested ss, b.expr.levels ≤ 5 * e
  | block, a | alternate, a => ∀ b ∈ List.flatMap Stmt.nested a.1, b.expr.levels ≤ 5 * e
  | function, f => ∀ b ∈ FunctionDecl.nested f, b.expr.levels ≤ 5 * e
  | functions, fs => ∀ f ∈ fs, ∀ b ∈ FunctionDecl.nested f, b.expr.levels ≤ 5 * e

/-- **Derived expressions have few levels.** -/
theorem Derives.low {e c : Nat} {n : Nonterminal} {ks : List TokenKind} {a : n.Value}
    (h : Derives e c n ks a) : n.Low e a := by
  induction h with
  | number | var => exact ⟨Nat.le_add_left .., nofun⟩
  | @call e c ks args type span callee _ ih =>
    refine ⟨Nat.succ_le_succ ?_, nofun⟩
    rw [Expr.argsLevels_eq]
    refine foldr_max_le fun n hn => ?_
    obtain ⟨a, ha, rfl⟩ := List.mem_map.1 hn
    exact (ih a ha).1
  | group _ ih => exact ⟨by rw [Expr.levels_withSpan]; exact Nat.le_succ_of_le ih.1, nofun⟩
  | neg _ ih => exact ⟨Nat.succ_le_succ ih.1, nofun⟩
  | unsigned _ ih => exact ⟨Nat.le_succ_of_le ih.1, nofun⟩
  | @operand e c ks a l _ ih =>
    have hbound := l.bound_operand
    refine ⟨by have hlevels := ih.1; omega, fun l' hl' _ => ?_⟩
    obtain rfl : l = l' := Level.chain.inj hl'
    exact ih.1
  | @binary e c ks ks' left right type span l op hop _ _ ihl ihr =>
    have hbound := l.bound_operand
    obtain ⟨hleft, hoperand⟩ := ihl
    have hright := ihr.1
    constructor
    · rw [Expr.levels, hop]
      split
      · omega
      · next hchain =>
        have hless := hoperand l rfl hchain
        omega
    · intro l' hl' hchain
      obtain rfl : l = l' := Level.chain.inj hl'
      exact absurd (congrArg some hop) hchain
  | unassigned _ ih => exact ⟨ih.1, nofun⟩
  | assign _ ih =>
    refine ⟨?_, nofun⟩
    have hvalue := ih.1
    rw [Expr.levels]
    simp only [Level.bound] at hvalue ⊢
    omega
  | expression _ ih => exact ⟨ih.1, nofun⟩
  | single _ ih => exact List.forall_mem_singleton.2 ih
  | cons _ _ ih ihs => exact List.forall_mem_cons.2 ⟨ih, ihs⟩
  | noItems | noStatements | noFunctions => nofun
  | someItems _ ih | branching _ ih | block _ ih | elseBlock _ ih | function _ _ _ ih => exact ih
  | declaration _ _ ih | ret _ ih | expressionStmt _ ih => exact List.forall_mem_singleton.2 ih.1
  | moreStatements _ _ ih ihs => exact List.forall_mem_append.2 ⟨ih, ihs⟩
  | @conditional e c ks ks' condition ss stop span _ _ ihc iht =>
    refine List.forall_mem_cons.2 ⟨ihc.1, ?_⟩
    rw [Stmt.branchNested_eq_flatMap]
    exact List.forall_mem_append.2 ⟨iht, nofun⟩
  | @conditionalElse e c ks ks' ks'' condition ss ss' stop stop' span _ _ _ ihc iht ihf =>
    refine List.forall_mem_cons.2 ⟨ihc.1, ?_⟩
    rw [Stmt.branchNested_eq_flatMap, Stmt.alternateNested_eq_flatMap]
    exact List.forall_mem_append.2 ⟨iht, ihf⟩
  | elseIf _ ih =>
    show ∀ b ∈ _ ++ [], _
    rwa [List.append_nil]
  | param => trivial
  | moreFunctions _ _ ih ihs => exact List.forall_mem_cons.2 ⟨ih, ihs⟩

/-! ### long chains -/

theorem Expr.height_mapSpan (g : SpanMap) (e : Expr) : (e.mapSpan g).height = e.height := by
  induction e using induction_children with
  | h e ih =>
    cases e with
    | number | var => rfl
    | neg operand | assign _ operand =>
      rw [mapSpan, height, height, ih operand List.mem_cons_self]
    | binary op left right =>
      rw [mapSpan, height, height, ih left List.mem_cons_self,
        ih right (List.mem_cons_of_mem _ List.mem_cons_self)]
    | call callee args =>
      have hargs : args.map (height ∘ mapSpan g) = args.map height := List.map_congr_left ih
      rw [mapSpan, height, height, argsHeight_eq, argsHeight_eq, argsMapSpan_eq_map, List.map_map,
        hargs]

section
variable (o : Span) (n : Nat)

/-- `1 + 1 + ... + 1`, with `n` signs -/
def ones : Nat → Expr
  | 0 => .number (.ofNat 1) .int o
  | n + 1 => .binary .add (ones n) (.number (.ofNat 1) .int o) .int o

def onesKinds : Nat → List TokenKind
  | 0 => [.number "1"]
  | n + 1 => onesKinds n ++ [.symbol .plus, .number "1"]

/-- a function that returns the sum -/
def onesFunction : FunctionDecl := ⟨⟨"f", o⟩, [], [], .int, [.ret (ones o n) o], o⟩

def onesFunctionKinds : List TokenKind :=
  [.keyword .functionWord, .identifier "f", .symbol .leftParen, .symbol .rightParen,
    .symbol .colon, .keyword .intWord, .symbol .leftBrace, .keyword .returnWord] ++ onesKinds n ++
    [.symbol .semicolon, .symbol .rightBrace]

/-- the text of that function, with a blank in front of each word and sign -/
def onesFile : SourceFile :=
  ⟨"ones", String.ofList (piecesText ((onesFunctionKinds n).map ([' '], ·)))⟩

theorem ones_height : (ones o n).height = n + 1 := by
  induction n with
  | zero => rfl
  | succ n ih =>
    rw [ones, Expr.height, ih]
    exact congrArg (· + 1) (Nat.max_eq_left (Nat.le_add_left 1 n))

theorem ones_typed (Δ : Signatures) (Γ : Env) : (ones o n).Typed Δ Γ ∧ (ones o n).type = .int := by
  have hone : (Expr.number (.ofNat 1) .int o).Typed Δ Γ :=
    .number (fun _ => ⟨1, by decide, rfl⟩) nofun
  induction n with
  | zero => exact ⟨hone, rfl⟩
  | succ n ih =>
    obtain ⟨hsum, htype⟩ := ih
    have hnode : Expr.Typed Δ Γ (.binary .add (ones o n) _ _ o) := .arithmetic rfl hsum hone
    rw [htype] at hnode
    exact ⟨hnode, rfl⟩

theorem onesFunction_typed : (onesFunction o n).Typed .empty :=
  ⟨.nil, _, .ret (ones_typed o n _ _).1 .nil⟩

theorem ones_derives (e c : Nat) : Derives e c (.expr (.chain .sum)) (onesKinds n) (ones o n) := by
  have hone : Derives e c (.expr (.chain .product)) [.number "1"] (.number (.ofNat 1) .int o) :=
    .operand (l := .product) (.unsigned (.number (literal_whole
      ⟨by decide, List.all_eq_true.1 (by decide)⟩ (by decide +kernel) (by decide))))
  induction n with
  | zero => exact .operand (l := .sum) hone
  | succ n ih =>
    show Derives e c _ (onesKinds n ++ .symbol BinaryOp.add.symbol :: [.number "1"]) _
    exact .binary rfl ih hone

theorem onesFunction_derives :
    Derives 64 64 .function (onesFunctionKinds n) (onesFunction o n) := by
  have hvalue : Derives 64 64 (.expr .expression) (onesKinds n) (ones o n) :=
    .expression (.unassigned (.operand (l := .comparison) (ones_derives o n _ _)))
  have hbody : Derives 64 64 .statements _ [.ret (ones o n) o] :=
    .moreStatements (.ret hvalue) .noStatements
  have hblock : Derives 64 64 .block _ ([.ret (ones o n) o], o) := .block hbody
  have hfunction : Derives 64 64 .function _ (onesFunction o n) :=
    .function (.noItems (n := .param)) hblock
  simpa [onesFunctionKinds, typeMark, DataType.keyword] using hfunction

theorem onesFile_written : Written (onesFunctionKinds n) (onesFile n).text.toList := by
  have hone : (TokenKind.number "1").IsLexeme := .whole ⟨by decide, List.all_eq_true.1 (by decide)⟩
  have hname : (TokenKind.identifier "f").IsLexeme :=
    ⟨⟨'f', [], rfl, by decide, by simp⟩, by intro word; cases word <;> decide⟩
  have hsum : ∀ k ∈ onesKinds n, k.IsLexeme := by
    induction n with
    | zero => exact List.forall_mem_singleton.2 hone
    | succ n ih =>
      exact List.forall_mem_append.2 ⟨ih, List.forall_mem_cons.2
        ⟨trivial, List.forall_mem_singleton.2 hone⟩⟩
  have hall : ∀ k ∈ onesFunctionKinds n, k.IsLexeme := by
    refine List.forall_mem_append.2 ⟨List.forall_mem_append.2 ⟨?_, hsum⟩, ?_⟩
    · simp only [List.forall_mem_cons]
      exact ⟨trivial, hname, trivial, trivial, trivial, trivial, trivial, trivial, nofun⟩
    · simp only [List.forall_mem_cons]
      exact ⟨trivial, trivial, nofun⟩
  have hwritten := Written.of_blanks hall
  rwa [← String.toList_ofList (l := piecesText _)] at hwritten

/-- a sum of any length is accepted -/
theorem onesFile_parse : ∃ p f e, (onesFile n).parse = .ok p ∧ f ∈ p.functions ∧ e ∈ f.parts ∧
    e.height = n + 1 := by
  let o : Span := .point .origin
  let whole : Program := ⟨[onesFunction o n], o⟩
  have htyped : whole.Typed := by
    intro earlier f later hp
    obtain ⟨rfl, hf⟩ | ⟨-, hf⟩ := List.append_eq_singleton_iff.1 hp.symm <;> cases hf
    exact onesFunction_typed o n
  have hderived : whole.Derived 64 64 (onesFunctionKinds n ++ []) :=
    .moreFunctions (onesFunction_derives o n) .noFunctions
  rw [List.append_nil] at hderived
  obtain ⟨tokens, htokens, hkinds⟩ := SourceFile.written_iff.1 (onesFile_written n)
  obtain ⟨p, hp, hsame⟩ := Program.ofTokens_of_derived hkinds hderived htyped
  have hparse : (onesFile n).parse = .ok p := by
    rw [SourceFile.parse_of_tokens htokens]
    exact congrArg (Except.mapError (onesFile n).diagnose) hp
  -- spans do not change the height
  have hfunctions : p.functions.map (FunctionDecl.mapSpan .erase) =
      [(onesFunction o n).mapSpan .erase] := congrArg Program.functions hsame
  obtain ⟨f, hf, hfunction⟩ := List.map_eq_singleton_iff.1 hfunctions
  have hparts : f.parts.map (Expr.mapSpan .erase) =
      (onesFunction o n).parts.map (Expr.mapSpan .erase) := by
    rw [← FunctionDecl.parts_mapSpan, ← FunctionDecl.parts_mapSpan, hfunction]
  have hsum : ones o n ∈ (onesFunction o n).parts := by
    refine List.mem_flatMap.2 ⟨.ret (ones o n) o, List.mem_singleton.2 rfl, ?_⟩
    rw [Expr.parts_eq_children]
    exact List.mem_cons_self
  have hmem := List.mem_map_of_mem (f := Expr.mapSpan .erase) hsum
  rw [← hparts] at hmem
  obtain ⟨e, he, hspan⟩ := List.mem_map.1 hmem
  refine ⟨p, f, e, hparse, by simp [hf], he, ?_⟩
  rw [← e.height_mapSpan .erase, hspan, Expr.height_mapSpan, ones_height]

end

/-! ### accepted programs -/

/-- no number bounds the heights of the expressions in accepted programs -/
theorem SourceFile.heights_unbounded :
    ¬ ∃ bound, ∀ (file : SourceFile) (p : Program), file.parse = .ok p →
      ∀ f ∈ p.functions, ∀ e ∈ f.parts, e.height ≤ bound := by
  rintro ⟨bound, hbound⟩
  obtain ⟨p, f, e, hparse, hf, he, hheight⟩ := onesFile_parse bound
  have hle := hbound _ p hparse f hf e he
  omega

/-- **Only long chains make high trees.**  Within the limit of 64 open expressions, an expression of
an accepted program has at most 320 levels if the operators of a chain count as one.  Its height is
at most 320 times the length of its longest chain, and larger than that length. -/
theorem SourceFile.height_of_parse {file : SourceFile} {p : Program} (h : file.parse = .ok p)
    {f : FunctionDecl} (hf : f ∈ p.functions) {e : Expr} (he : e ∈ f.parts) :
    e.levels ≤ 320 ∧ e.height ≤ 320 * max 1 e.longestChain ∧ e.longestChain < e.height := by
  obtain ⟨tokens, -, hp⟩ := SourceFile.ofTokens_of_parse h
  obtain ⟨s, hread, hend⟩ := Program.reads_of_ofTokens hp
  have hderived := Reads.derived_file rfl rfl hread hend
  obtain ⟨s, hs, hpart⟩ := List.mem_flatMap.1 he
  have hlevels : e.levels ≤ 320 :=
    Nat.le_trans (Expr.le_of_mem_parts Expr.levels_le_of_child s.expr e hpart)
      (hderived.low f hf s hs)
  exact ⟨hlevels, Nat.le_trans e.height_le (Nat.mul_le_mul_right _ hlevels),
    e.longestChain_lt_height⟩

/-- three operators of one level, with a product as the last operand -/
def sumFile : SourceFile :=
  ⟨"sum", "function f(): Int \x7b return 1 + 2 + 3 - 4 * 5; \x7d"⟩

theorem SourceFile.height_example : ∃ p f e, sumFile.parse = .ok p ∧ f ∈ p.functions ∧
    e ∈ f.parts ∧ e.levels = 3 ∧ e.longestChain = 3 ∧ e.height ≤ 320 * 3 ∧ 3 < e.height := by
  have hcheck : (sumFile.parse.toOption.bind fun p => p.functions.head?.bind fun f =>
      f.parts.head?.map fun e => (e.levels, e.longestChain)) = some (3, 3) := by decide +kernel
  cases hp : sumFile.parse with
  | error d =>
    rw [hp] at hcheck
    cases hcheck
  | ok p =>
    rw [hp, Except.toOption, Option.bind_some] at hcheck
    obtain ⟨f, hf, hcheck⟩ := Option.bind_eq_some_iff.1 hcheck
    obtain ⟨e, he, hcheck⟩ := Option.map_eq_some_iff.1 hcheck
    obtain ⟨hlevels, hchain⟩ := Prod.mk.inj hcheck
    have hf : f ∈ p.functions := List.mem_of_head? hf
    have he : e ∈ f.parts := List.mem_of_head? he
    obtain ⟨-, hheight, hless⟩ := SourceFile.height_of_parse hp hf he
    rw [hchain] at hheight hless
    exact ⟨p, f, e, rfl, hf, he, hlevels, hchain, hheight, hless⟩

end Wattle
