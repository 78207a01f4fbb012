import Wattle.Proofs.Parser.Frame
import Wattle.Proofs.Parser.Runs
import Wattle.Proofs.Parser.Typing
import Wattle.Proofs.Token.Lines

/-!
# Programs in front of programs

Between two functions a state has no variables in scope and nothing open; all that is left of the
functions in front is what they are called and their signatures (`State.Between`).  A function is
therefore read in the same way wherever it stands (`Reads.moved`), and the programs of two texts can
be joined: `SourceFile.parse_joined` is the result.
-/

namespace Wattle

open Wattle.Parser State

/-! ### between functions -/

/-- nothing of the functions in front is known but their signatures -/
structure Parser.State.Between (before : List FunctionDecl) (s : State) : Prop where
  context : s.context = ⟨.empty, .ofFunctions before⟩
  depth : ∀ nesting, s.depth nesting = 0

theorem Parser.State.between_initial (tokens : List Token) : (initial tokens).Between [] :=
  ⟨rfl, fun nesting => by cases nesting <;> rfl⟩

theorem Parser.State.Between.mapSpan {before : List FunctionDecl} {s : State}
    (h : s.Between before) (g : SpanMap) : (s.mapSpan g).Between before :=
  ⟨h.context, fun nesting => (depth_mapSpan g s nesting).trans (h.depth nesting)⟩

section
variable {limits : Limits} {before fs gs : List FunctionDecl} {s s₁ s' t : State}

theorem Reads.between (h : Reads limits .functions s fs s') (hs : s.Between before) :
    s'.Between (before ++ fs) := by
  have hthreads : Threads FunctionDecl.TypedIn s.context fs s'.context := h.typed
  rw [hs.context] at hthreads
  exact ⟨FunctionDecl.context_of_threads hthreads,
    fun nesting => (h.depth_eq nesting).trans (hs.depth nesting)⟩

theorem Reads.append (h : Reads limits .functions s fs s₁)
    (h' : Reads limits .functions s₁ gs s') : Reads limits .functions s (fs ++ gs) s' := by
  induction fs generalizing s with
  | nil =>
    cases h
    exact h'
  | cons f fs ih =>
    cases h with
    | moreFunctions hf hs => exact .moreFunctions hf (ih hs)

end

section
variable {E C : Nat} {before fs gs : List FunctionDecl} {s s₁ s' t : State} {ts new : List Token}
  {stop : Token}

/-- **A row of functions is read in the same way behind other functions**, and with other tokens
behind it, unless it calls one of the functions in front. -/
theorem Reads.moved (h : Reads ⟨some E, some C⟩ .functions s fs s') (hs : s.Between [])
    (hend : s'.sees .endOfFile = true) (hrest : s.rest = ts ++ [stop])
    (hstop : stop.kind = .endOfFile) (hts : ∀ t ∈ ts, t.kind ≠ .endOfFile)
    (ht : t.Between before) (hnew : t.rest = ts ++ new)
    (hcalls : ∀ f ∈ fs, ∀ name ∈ f.callees, name ∉ before.map (·.name.name)) :
    ∃ t', Reads ⟨some E, some C⟩ .functions t fs t' ∧ t'.rest = new ∧
      t'.Between (before ++ fs) := by
  let F : ReadingFrame := ⟨[stop], new, .ofFunctions before, by simp⟩
  have hst : F.Relates s t := by
    refine ⟨⟨ts, hrest, hnew⟩, ?_, fun name => ?_, fun nesting => ?_⟩
    · exact (congrArg Context.env ht.context).trans (congrArg Context.env hs.context).symm
    · have hnone : s.functions.get? name = none :=
        congrFun (congrArg Context.signatures hs.context) name
      rw [hnone, Option.none_or]
      exact congrFun (congrArg Context.signatures ht.context) name
    · rw [ht.depth, hs.depth]
  have hunknown : ∀ name ∈ Nonterminal.functions.callees fs, F.known name = none := by
    intro name hname
    obtain ⟨f, hf, hname⟩ := List.mem_flatMap.1 hname
    have hfresh := hcalls f hf name hname
    simp only [F, Signatures.ofFunctions, Option.map_eq_none_iff, List.find?_eq_none,
      List.mem_reverse, beq_iff_eq]
    exact fun g hg e => hfresh (List.mem_map.2 ⟨g, hg, e⟩)
  have hs' := h.rest_eq_stop hend hrest hstop hts
  obtain ⟨t', hread, hst'⟩ := h.framed hst (by simp [F, hs']) hunknown
  refine ⟨t', hread, ?_, hread.between ht⟩
  obtain ⟨ts', hold, hnew'⟩ := hst'.rest
  obtain rfl : ts' = [] := by simpa [F, hs'] using hold
  exact hnew'

/-- functions that have been read are the first ones of every run -/
theorem Reads.prefix_of_run {steps k : Nat} (h : Reads ⟨some E, some C⟩ .functions s fs s₁)
    (hrest : s₁.rest ≠ []) (hsteps : s.rest.length ≤ steps)
    (hrun : functions ⟨some E, some C⟩ (steps + 1) k s = .done gs s') : fs <+: gs := by
  induction fs generalizing s k gs with
  | nil => exact List.nil_prefix
  | cons f fs ih =>
    cases h with
    | @moreFunctions _ _ s₂ _ _ hf hs =>
      have hr₂ := hs.rest_ne_nil hrest
      have hfirst := hf.isRun hr₂ trivial hsteps
      have hgo : s.sees .endOfFile = false :=
        not_sees_of_kind (hf.rest_ne_nil hr₂) hf.starts (by simp)
      cases k with
      | zero => exact absurd hrun (outOfSteps_done (s := s))
      | succ k =>
        simp only [Parser.functions, functionsOf, sees_bind, hgo, Bool.false_eq_true, if_false,
          ite_done, bind_done, pure_done, current_bind, failHere_done, and_false, or_false] at hrun
        obtain ⟨-, g, s₃, hg, gs, _, hgs, rfl, rfl⟩ := hrun
        obtain ⟨rfl, rfl⟩ : f = g ∧ s₂ = s₃ := by
          simpa [Nonterminal.Runs, hg, eq_comm] using hfirst
        exact List.cons_prefix_cons.2 ⟨rfl, ih hs (Nat.le_trans hf.length_le hsteps) hgs⟩

end

/-! ### joined programs -/

theorem FunctionDecl.callees_mapSpan (g : SpanMap) (f : FunctionDecl) :
    (f.mapSpan g).callees = f.callees := by
  simp only [callees, parts_mapSpan, List.filterMap_map, Function.comp_def, Expr.callee?_mapSpan]

/-- an accepted program under other spans -/
theorem Program.reads_mapSpan {limits : Limits} {tokens : List Token} {p : Program}
    (h : Program.ofTokens limits tokens = .ok p) (g : SpanMap) :
    ∃ s, Reads limits .functions ((initial tokens).mapSpan g)
      (p.functions.map (FunctionDecl.mapSpan g)) s ∧ s.sees .endOfFile = true := by
  obtain ⟨s, hrun⟩ := run_of_ofTokens h
  have hmapped := Commutes.functions limits (stepBound limits tokens.length)
    (stepBound limits tokens.length) (g := g) (initial tokens)
  rw [hrun] at hmapped
  exact ⟨s.mapSpan g, functions_sound _ _ hmapped, (sees_mapSpan ..).trans (functions_stop hrun)⟩

section
variable {E C : Nat} {p q : Program} {ts us : List Token} {stop stop' : Token}

/-- the functions of a program are read in the same way if other tokens go on behind them -/
theorem Program.reads_in_front (h : Program.ofTokens ⟨some E, some C⟩ (ts ++ [stop]) = .ok p)
    (hstop : stop.kind = .endOfFile) (hts : ∀ t ∈ ts, t.kind ≠ .endOfFile) (new : List Token) :
    ∃ s, Reads ⟨some E, some C⟩ .functions (.initial (ts ++ new)) p.functions s ∧ s.rest = new ∧
      s.Between p.functions := by
  obtain ⟨s, hread, hend⟩ := reads_of_ofTokens h
  exact hread.moved (between_initial _) hend rfl hstop hts (between_initial _) rfl (by simp)

theorem Program.ofTokens_joined (g : SpanMap)
    (hp : Program.ofTokens ⟨some E, some C⟩ (ts ++ [stop]) = .ok p)
    (hstop : stop.kind = .endOfFile) (hts : ∀ t ∈ ts, t.kind ≠ .endOfFile)
    (hq : Program.ofTokens ⟨some E, some C⟩ (us ++ [stop']) = .ok q)
    (hstop' : stop'.kind = .endOfFile) (hus : ∀ t ∈ us, t.kind ≠ .endOfFile)
    (hcalls : ∀ f ∈ q.functions, ∀ name ∈ f.callees, name ∉ p.functions.map (·.name.name)) :
    ∃ span, Program.ofTokens ⟨some E, some C⟩ (ts ++ (us ++ [stop']).map (Token.mapSpan g)) =
      .ok ⟨p.functions ++ q.functions.map (FunctionDecl.mapSpan g), span⟩ := by
  obtain ⟨s, hread, hrest, hs⟩ :=
    reads_in_front hp hstop hts ((us ++ [stop']).map (Token.mapSpan g))
  obtain ⟨s', hread', hend⟩ := reads_mapSpan hq g
  have hmapped : ((initial (us ++ [stop'])).mapSpan g).rest =
      us.map (Token.mapSpan g) ++ [stop'.mapSpan g] := List.map_append
  rw [List.map_append] at hrest
  obtain ⟨t', hread', hrest', -⟩ := hread'.moved ((between_initial _).mapSpan g) hend hmapped hstop'
    (by simpa using hus) hs hrest (by simpa [FunctionDecl.callees_mapSpan] using hcalls)
  refine ofTokens_of_reads (hread.append hread') (by simp [hrest']) ?_
  simpa [State.current, hrest'] using hstop'

/-- functions that end where a program does are the first ones of every program that goes on -/
theorem Program.prefix_of_ofTokens {r : Program} {new : List Token}
    (hp : Program.ofTokens ⟨some E, some C⟩ (ts ++ [stop]) = .ok p)
    (hstop : stop.kind = .endOfFile) (hts : ∀ t ∈ ts, t.kind ≠ .endOfFile) (hnew : new ≠ [])
    (hr : Program.ofTokens ⟨some E, some C⟩ (ts ++ new) = .ok r) :
    p.functions <+: r.functions := by
  obtain ⟨s, hread, hrest, -⟩ := reads_in_front hp hstop hts new
  obtain ⟨s', hrun⟩ := run_of_ofTokens hr
  have hsteps : ∃ steps, stepBound ⟨some E, some C⟩ (ts ++ new).length = steps + 1 ∧
      (ts ++ new).length ≤ steps := ⟨_, rfl, by simp only [Option.getD_some]; omega⟩
  obtain ⟨steps, hbound, hle⟩ := hsteps
  rw [hbound] at hrun
  exact hread.prefix_of_run (by rwa [hrest]) hle hrun

end

/-- **Texts are compiled apart.**  Behind a program and a line feed, a program that calls none of
the functions in front gives the functions that it gives by itself, some lines below, and the
functions in front stay what they are.  They do so whatever stands behind them, if the whole text is
accepted. -/
theorem SourceFile.parse_joined {file a b : SourceFile} {p : Program} (hfile : file.Joins a b)
    (ha : a.parse = .ok p) :
    (∀ q, b.parse = .ok q →
      (∀ f ∈ q.functions, ∀ name ∈ f.callees, name ∉ p.functions.map (·.name.name)) →
      ∃ r, file.parse = .ok r ∧ r.functions = p.functions ++
        q.functions.map (FunctionDecl.mapSpan (.below (a.text.toList.count '\n' + 1)))) ∧
    ∀ r, file.parse = .ok r → p.functions <+: r.functions := by
  obtain ⟨tokens, htokens, hp⟩ := ofTokens_of_parse ha
  have hjoined := tokens_joined hfile htokens
  obtain ⟨ts, stop, rfl, hstop, hts⟩ := tokens_eq_snoc htokens
  rw [List.dropLast_concat] at hjoined
  refine ⟨fun q hb hcalls => ?_, fun r hr => ?_⟩
  · obtain ⟨tokens', htokens', hq⟩ := ofTokens_of_parse hb
    obtain ⟨us, stop', rfl, hstop', hus⟩ := tokens_eq_snoc htokens'
    obtain ⟨span, hok⟩ := Program.ofTokens_joined _ hp hstop hts hq hstop' hus hcalls
    rw [htokens'] at hjoined
    have hfunctions := parse_of_tokens hjoined
    rw [Limits.standard, hok] at hfunctions
    exact ⟨_, hfunctions, rfl⟩
  · obtain ⟨all, hall, hr⟩ := ofTokens_of_parse hr
    rw [hjoined] at hall
    cases htokens' : b.tokens with
    | error fault => simp [htokens', Except.map] at hall
    | ok tokens' =>
      obtain ⟨us, stop', rfl, -⟩ := tokens_eq_snoc htokens'
      rw [htokens'] at hall
      cases hall
      exact Program.prefix_of_ofTokens hp hstop hts (by simp) hr

namespace SourceFile

/-- a program that ends in an open comment -/
def frontFile : SourceFile :=
  ⟨"front", "function f(a: Int): Int \x7b\n  return f(a);\n\x7d // no line feed"⟩

/-- a program that declares the function in front again -/
def behindFile : SourceFile :=
  ⟨"behind", "function f(x: Double): Double \x7b return g(x); \x7d"⟩

def joinedFile : SourceFile := ⟨"joined", frontFile.text ++ "\n" ++ behindFile.text⟩

theorem parse_joined_example : ∃ p q r, frontFile.parse = .ok p ∧ behindFile.parse = .ok q ∧
    joinedFile.parse = .ok r ∧ p.functions <+: r.functions ∧
    r.functions = p.functions ++ q.functions.map (FunctionDecl.mapSpan (.below 3)) := by
  have hcheck : (match frontFile.parse with
      | .ok p => match behindFile.parse with
        | .ok q => decide (∀ f ∈ q.functions, ∀ name ∈ f.callees,
            name ∉ p.functions.map (·.name.name))
        | .error _ => false
      | .error _ => false) = true := by decide +kernel
  have hlines : frontFile.text.toList.count '\n' = 2 := by decide +kernel
  split at hcheck
  · next p hp =>
    split at hcheck
    · next q hq =>
      have htext : joinedFile.Joins frontFile behindFile := rfl
      obtain ⟨hjoined, hprefix⟩ := parse_joined htext hp
      obtain ⟨r, hr, hfunctions⟩ := hjoined q hq (of_decide_eq_true hcheck)
      rw [hlines] at hfunctions
      exact ⟨p, q, r, hp, hq, hr, hprefix r hr, hfunctions⟩
    · cases hcheck
  · cases hcheck

end SourceFile

end Wattle
