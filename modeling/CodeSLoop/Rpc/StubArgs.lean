import CodeSLoop.Rpc.StubLoops
import Mathlib.Data.List.Infix

/-!
# The argument lists that the generators print

`stub_client` prints the inner call of a synchronous function, `stub_server` the call of the
implementation, and `generate_func_params` the parameters of a declaration. All of them go through
the parameters of a function, and all of them decide on a comma after they have moved on:

    param_it++;
    if ( (*param_it).kind!=MD_EXCEPTION && param_it != end() )

So the kind is read before the iterator is compared with the end. Behind the last parameter it is
read at the end of the vector, by the server's loop and the declarations' always and by the client's
loop unless it left the last parameter out; `arguments_fail` says this, and what the texts are in
spite of it:

* the inner call is right where some parameter is not an exception and no exception stands between
  two that are not;
* the implementation's call is right where the first parameter is not an exception, since a comma
  stands before every other one that is not;
* a declaration is right there too, and with no fixed argument where there are exceptions only, if
  it is for the one function of that name: it is printed for all that have the name.

What is read at the end decides nothing, as the comparison comes behind it; the texts are taken to
be what they are when the read does no harm.
-/

namespace CodeSLoop

namespace Rpc

/-! ## Descriptions, with what declarations need -/

/-- `iface::param`, with `is_array`. -/
structure ArrayParam extends Param where
  isArray : Bool

/-- `iface::func` as the grammar makes it: there is a last line with a parameter. -/
structure Spec where
  name : String
  params : List ArrayParam
  some_param : params ≠ []

namespace Spec

/-- The description for the stubs. -/
def toFunc (f : Spec) : Func := ⟨f.name, f.params.map ArrayParam.toParam⟩

/-- The names that are to be in an argument list. -/
def names (f : Spec) : List String := f.toFunc.sig.map Param.name

/-- The internal function. -/
def ping : Spec where
  name := "ping"
  params := [⟨⟨"uint64_t", "client_time", .inout⟩, false⟩, ⟨⟨"uint64_t", "server_time", .output⟩, false⟩]
  some_param := List.cons_ne_nil _ _

end Spec

/-! ## What is printed -/

/-- What a loop prints and reads: tokens, the text between them (types and comments), the closing
    parenthesis, and the kind of the parameter at `end()`. -/
inductive Piece
  | tok (t : Tok) | text (s : String) | close | pastEnd

/-- `(*param_it).kind!=MD_EXCEPTION && param_it != end()`, when `ps` are left. -/
def separator : List Param → List Piece
  | [] => [.pastEnd]
  | p :: _ => if p.kind ≠ .exception then [.tok .comma] else []

namespace StubClient

/-- The loop for the inner call. -/
def innerArgs : List Param → List Piece
  | [] => []
  | p :: ps =>
    if p.kind = .exception then innerArgs ps
    else .tok (.name p.name) :: separator ps ++ innerArgs ps

/-- The call in the synchronous function. -/
def innerCall (f : Func) : List Piece :=
  .tok (.name "__handle") :: .tok .comma :: innerArgs f.params ++ [.close]

end StubClient

namespace StubServer

/-- The loop for the call of the implementation. -/
def implArgs : List Param → List Piece
  | [] => []
  | p :: ps =>
    (if p.kind ≠ .exception then [.tok (.name p.name)] else []) ++ separator ps ++ implArgs ps

/-- The call in `despatch`. -/
def implCall (f : Func) : List Piece :=
  .tok (.name "ci") :: .tok .comma :: implArgs f.params ++ [.close]

end StubServer

/-- `stub_kind`. -/
inductive StubKind
  | client | server
deriving DecidableEq

/-- `param_kind_name`. -/
def ParamKind.text : ParamKind → String
  | .input => "input"
  | .output => "output"
  | .inout => "inout"
  | .exception => "exception"

/-- How a parameter is passed. -/
def ParamKind.passed (kind : StubKind) : ParamKind → String
  | .input => " &"
  | .output => match kind with
    | .client => " *"
    | .server => " &"
  | .inout => " &"
  | .exception => ""

namespace StubBase

/-- A parameter in a declaration. -/
def declared (kind : StubKind) (p : ArrayParam) : List Piece :=
  if p.kind = .exception then [.text ("/* throws " ++ p.type ++ " */")]
  else
    [.text ("/* " ++ p.kind.text ++ " */\t" ++ (if p.kind = .input then "const " else "") ++
      (if p.isArray then "vec<" ++ p.type ++ ">" else p.type) ++ p.kind.passed kind ++ "\t"),
      .tok (.name p.name)]

/-- The loop over the parameters. -/
def declarations (kind : StubKind) : List ArrayParam → List Piece
  | [] => []
  | p :: ps => declared kind p ++ separator (ps.map ArrayParam.toParam) ++ declarations kind ps

/-- `generate_func_params`: for each function of the name. -/
def generateFuncParams (function : String) (kind : StubKind) (isAsync : Bool) : List Spec → List Piece
  | [] => []
  | f :: fs =>
    if f.name ≠ function then generateFuncParams function kind isAsync fs
    else
      (if isAsync then [.text "/* inout */\tcsl::rpc::handle &\t", .tok (.name "__handle"), .tok .comma]
        else []) ++
      (if kind = .server then
        [.text "/* input */\tconst csl::rpc::client_info &\t", .tok (.name "ci"), .tok .comma] else []) ++
      declarations kind f.params ++ .close :: generateFuncParams function kind isAsync fs

/-- The fixed arguments of a declaration. -/
def fixed (kind : StubKind) (isAsync : Bool) : List String :=
  (if isAsync then ["__handle"] else []) ++ if kind = .server then ["ci"] else []

end StubBase

/-! ## What should be -/

/-- Names, with a comma between each two. -/
def listed (xs : List String) : List Tok := (xs.map Tok.name).intersperse .comma

/-- What a compiler sees of the text. -/
def Piece.isCode : Piece → Bool
  | .tok _ => true
  | .close => true
  | _ => false

def Piece.isClose : Piece → Bool
  | .close => true
  | _ => false

/-- The text is the names with commas between them, and the parenthesis. -/
def Exact (out : List Piece) (xs : List String) : Prop :=
  out.filter Piece.isCode = (listed xs).map Piece.tok ++ [.close]

/-- Nothing is read at the end. -/
def InRange (out : List Piece) : Prop := Piece.pastEnd ∉ out

/-- The argument lists of a function are well formed: the inner call, the call of the
    implementation, and the declarations in the header and the body of the client's class and in
    the server's header. -/
structure WellFormed (fs : List Spec) (f : Spec) : Prop where
  inner : Exact (StubClient.innerCall f.toFunc) ("__handle" :: f.names)
  inner_reads : InRange (StubClient.innerCall f.toFunc)
  impl : Exact (StubServer.implCall f.toFunc) ("ci" :: f.names)
  impl_reads : InRange (StubServer.implCall f.toFunc)
  declared : ∀ k a, (k, a) ≠ (.server, true) →
    Exact (StubBase.generateFuncParams f.name k a (fs ++ [Spec.ping])) (StubBase.fixed k a ++ f.names)
  declared_reads : ∀ k a, (k, a) ≠ (.server, true) →
    InRange (StubBase.generateFuncParams f.name k a (fs ++ [Spec.ping]))

/-- An exception stands between two parameters that are none. -/
def Parted (ps : List Param) : Prop :=
  ∃ a e b, [a, e, b].Sublist ps ∧ a.kind ≠ .exception ∧ e.kind = .exception ∧ b.kind ≠ .exception

/-- The first parameter is not an exception. -/
def Leads (ps : List Param) : Prop := ∃ p ∈ ps.head?, p.kind ≠ .exception

/-! ## Lists of names -/

section Listed

variable {xs ys : List String} {ts : List Tok}

theorem listed_cons (x : String) (xs : List String) :
    listed (x :: xs) = .name x :: xs.flatMap fun y => [.comma, .name y] := by
  induction xs generalizing x with
  | nil => rfl
  | cons y ys ih =>
    have hrest : listed (y :: ys) = .name y :: ys.flatMap fun z => [.comma, .name z] := ih y
    have hcons : listed (x :: y :: ys) = .name x :: .comma :: listed (y :: ys) := rfl
    rw [hcons, hrest, List.flatMap_cons]
    rfl

/-- Behind a name and a comma there is to be another. -/
theorem listed_fixed_iff (x : String) : .name x :: .comma :: ts = listed (x :: ys) ↔
    ys ≠ [] ∧ ts = listed ys := by
  cases ys with
  | nil =>
    rw [listed_cons]
    refine iff_of_false (fun h => ?_) fun h => h.1 rfl
    cases h
  | cons y ys =>
    have hcons : listed (x :: y :: ys) = .name x :: .comma :: listed (y :: ys) := rfl
    rw [hcons, List.cons.injEq, List.cons.injEq]
    constructor
    · rintro ⟨-, -, h⟩
      exact ⟨List.cons_ne_nil _ _, h⟩
    · rintro ⟨-, h⟩
      exact ⟨rfl, rfl, h⟩

/-- A comma does not come first. -/
theorem listed_ne_comma (xs : List String) (ts : List Tok) : .comma :: ts ≠ listed xs := by
  intro h
  cases xs with
  | nil => cases h
  | cons x xs =>
    rw [listed_cons] at h
    cases h

end Listed

/-! ## The texts -/

section Texts

variable {p q : Param} {ps : List Param}

theorem sig_cons_exception (h : p.kind = .exception) :
    (p :: ps).filter (fun p => p.kind ≠ .exception) = ps.filter fun p => p.kind ≠ .exception :=
  List.filter_cons_of_neg (by simp [h])

theorem sig_cons (h : p.kind ≠ .exception) :
    (p :: ps).filter (fun p => p.kind ≠ .exception) = p :: ps.filter fun p => p.kind ≠ .exception :=
  List.filter_cons_of_pos (by simp [h])

/-- The names of the parameters that are not exceptions. -/
def argNames (ps : List Param) : List String := (ps.filter fun p => p.kind ≠ .exception).map Param.name

theorem argNames_exception (h : p.kind = .exception) : argNames (p :: ps) = argNames ps := by
  rw [argNames, sig_cons_exception h]
  rfl

theorem argNames_cons (h : p.kind ≠ .exception) : argNames (p :: ps) = p.name :: argNames ps := by
  rw [argNames, sig_cons h]
  rfl

theorem code_append (xs ys : List Piece) : (xs ++ ys).filter Piece.isCode =
    xs.filter Piece.isCode ++ ys.filter Piece.isCode := List.filter_append _ _

/-- Texts of tokens and a parenthesis are the same when the tokens are. -/
theorem exact_tok_iff {ts us : List Tok} :
    ts.map Piece.tok ++ [.close] = us.map Piece.tok ++ [.close] ↔ ts = us := by
  rw [List.append_left_inj]
  exact List.map_inj_right fun t u h => Piece.tok.inj h

theorem code_separator (ps : List Param) : (separator ps).filter Piece.isCode = (comma ps).map Piece.tok := by
  cases ps with
  | nil => rfl
  | cons p ps =>
    by_cases h : p.kind ≠ .exception
    · rw [separator, comma, if_pos h, if_pos h]
      rfl
    · rw [separator, comma, if_neg h, if_neg h]
      rfl

/-- The loops print what the stubs are made of. -/
theorem code_innerArgs (ps : List Param) :
    (StubClient.innerArgs ps).filter Piece.isCode = (StubClient.callArgs ps).map Piece.tok := by
  induction ps with
  | nil => rfl
  | cons p ps ih =>
    by_cases h : p.kind = .exception
    · rw [StubClient.innerArgs, StubClient.callArgs, if_pos h, if_pos h, ih]
    · rw [StubClient.innerArgs, StubClient.callArgs, if_neg h, if_neg h, List.cons_append, List.cons_append,
        List.map_cons, List.map_append, ← ih, ← code_separator, ← code_append]
      rfl

theorem code_implArgs (ps : List Param) :
    (StubServer.implArgs ps).filter Piece.isCode = (StubServer.callArgs ps).map Piece.tok := by
  induction ps with
  | nil => rfl
  | cons p ps ih =>
    rw [StubServer.implArgs, StubServer.callArgs, code_append, code_append, code_separator, ih,
      List.map_append, List.map_append]
    by_cases h : p.kind ≠ .exception
    · rw [if_pos h, if_pos h]
      rfl
    · rw [if_neg h, if_neg h]
      rfl

/-- A declaration's names and commas are those of the server's call. -/
theorem code_declarations (kind : StubKind) (ps : List ArrayParam) :
    (StubBase.declarations kind ps).filter Piece.isCode =
      (StubServer.callArgs (ps.map ArrayParam.toParam)).map Piece.tok := by
  induction ps with
  | nil => rfl
  | cons p ps ih =>
    rw [StubBase.declarations, List.map_cons, StubServer.callArgs, code_append, code_append, code_separator, ih,
      List.map_append, List.map_append]
    by_cases h : p.kind = .exception
    · rw [StubBase.declared, if_pos h, if_neg (not_not.mpr h)]
      rfl
    · rw [StubBase.declared, if_neg h, if_pos h]
      rfl

/-- The server's loop prints a comma before each argument but for the first parameter. -/
theorem comma_callArgs (ps : List Param) : comma ps ++ StubServer.callArgs ps =
    (argNames ps).flatMap fun x => [.comma, .name x] := by
  induction ps with
  | nil => rfl
  | cons p ps ih =>
    by_cases h : p.kind = .exception
    · rw [comma, StubServer.callArgs, if_neg (not_not.mpr h), if_neg (not_not.mpr h), argNames_exception h, ← ih]
      rfl
    · rw [comma, StubServer.callArgs, if_pos h, if_pos h, argNames_cons h, List.flatMap_cons, ← ih]
      rfl

theorem callArgs_eq_iff (ps : List Param) :
    StubServer.callArgs ps = listed (argNames ps) ↔ Leads ps ∨ argNames ps = [] := by
  cases ps with
  | nil => exact iff_of_true rfl (Or.inr rfl)
  | cons p ps =>
    by_cases h : p.kind = .exception
    · have hcall : StubServer.callArgs (p :: ps) = (argNames ps).flatMap fun x => [.comma, .name x] := by
        rw [StubServer.callArgs, if_neg (not_not.mpr h), ← comma_callArgs]
        rfl
      have hlead : ¬ Leads (p :: ps) := by
        rintro ⟨q, hq, hkind⟩
        cases hq
        exact hkind h
      rw [hcall, argNames_exception h, or_iff_right hlead]
      cases hnames : argNames ps with
      | nil => exact iff_of_true rfl rfl
      | cons x xs => exact iff_of_false (listed_ne_comma _ _) (List.cons_ne_nil _ _)
    · refine iff_of_true ?_ (Or.inl ⟨p, rfl, h⟩)
      rw [StubServer.callArgs, if_pos h, argNames_cons h, listed_cons, List.append_assoc, comma_callArgs]
      rfl

theorem parted_exception (h : p.kind = .exception) : Parted (p :: ps) ↔ Parted ps := by
  constructor
  · rintro ⟨a, e, b, hsub, ha, he, hb⟩
    cases hsub with
    | cons _ hsub => exact ⟨a, e, b, hsub, ha, he, hb⟩
    | cons_cons _ _ => exact absurd h ha
  · rintro ⟨a, e, b, hsub, ha, he, hb⟩
    exact ⟨a, e, b, hsub.cons _, ha, he, hb⟩

/-- Next to one another, two arguments are the same to what comes behind them. -/
theorem parted_cons (hq : q.kind ≠ .exception) :
    Parted (p :: q :: ps) ↔ Parted (q :: ps) := by
  constructor
  · rintro ⟨a, e, b, hsub, ha, he, hb⟩
    cases hsub with
    | cons _ hsub => exact ⟨a, e, b, hsub, ha, he, hb⟩
    | cons_cons _ hsub =>
      cases hsub with
      | cons _ hsub => exact ⟨q, e, b, hsub.cons_cons _, hq, he, hb⟩
      | cons_cons _ _ => exact absurd he hq
  · rintro ⟨a, e, b, hsub, ha, he, hb⟩
    exact ⟨a, e, b, hsub.cons _, ha, he, hb⟩

/-- An exception behind an argument parts it from any other. -/
theorem parted_cons_exception (hp : p.kind ≠ .exception) (hq : q.kind = .exception) :
    Parted (p :: q :: ps) ↔ argNames ps ≠ [] := by
  constructor
  · rintro ⟨a, e, b, hsub, -, -, hb⟩ hnil
    have hb' : b ∈ q :: ps := by
      cases hsub with
      | cons _ hsub => exact hsub.subset (by simp)
      | cons_cons _ hsub => exact hsub.subset (by simp)
    have hps : b ∈ ps := by
      cases hb' with
      | head => exact absurd hq hb
      | tail _ h => exact h
    have hmem : b.name ∈ argNames ps := List.mem_map_of_mem (List.mem_filter.mpr ⟨hps, by simp [hb]⟩)
    rw [hnil] at hmem
    cases hmem
  · intro hne
    obtain ⟨x, hx⟩ := List.exists_mem_of_ne_nil _ hne
    obtain ⟨b, hb, -⟩ := List.mem_map.mp hx
    obtain ⟨hps, hkind⟩ := List.mem_filter.mp hb
    exact ⟨p, q, b, ((List.singleton_sublist.mpr hps).cons_cons _).cons_cons _, hp, hq, of_decide_eq_true hkind⟩

/-- The client's loop does not print a comma first. -/
theorem clientArgs_ne_comma (ps : List Param) (ts : List Tok) : StubClient.callArgs ps ≠ .comma :: ts := by
  induction ps with
  | nil => exact (List.cons_ne_nil _ _).symm
  | cons p ps ih =>
    intro h
    by_cases hp : p.kind = .exception
    · rw [StubClient.callArgs, if_pos hp] at h
      exact ih h
    · rw [StubClient.callArgs, if_neg hp] at h
      cases h

theorem clientArgs_nil (h : argNames ps = []) : StubClient.callArgs ps = [] := by
  induction ps with
  | nil => rfl
  | cons p ps ih =>
    by_cases hp : p.kind = .exception
    · rw [StubClient.callArgs, if_pos hp]
      exact ih (by rwa [argNames_exception hp] at h)
    · rw [argNames_cons hp] at h
      cases h

theorem clientArgs_eq_iff (ps : List Param) :
    StubClient.callArgs ps = listed (argNames ps) ↔ ¬ Parted ps := by
  induction ps with
  | nil =>
    refine iff_of_true rfl ?_
    rintro ⟨a, e, b, hsub, -⟩
    cases hsub
  | cons p ps ih =>
    by_cases h : p.kind = .exception
    · rw [StubClient.callArgs, if_pos h, argNames_exception h, parted_exception h, ih]
    · rw [StubClient.callArgs, if_neg h, argNames_cons h]
      cases ps with
      | nil =>
        refine iff_of_true rfl ?_
        rintro ⟨a, e, b, hsub, -⟩
        have hlen : 3 ≤ 1 := hsub.length_le
        exact absurd hlen (by decide)
      | cons q ps =>
        by_cases hq : q.kind = .exception
        · rw [parted_cons_exception h hq, not_not, comma, if_neg (not_not.mpr hq), argNames_exception hq,
            listed_cons, StubClient.callArgs, if_pos hq, List.cons_append, List.nil_append, List.cons.injEq,
            and_iff_right rfl]
          -- no comma was printed, so there must be no more names
          cases hnames : argNames ps with
          | nil => exact iff_of_true (clientArgs_nil hnames) rfl
          | cons x xs => exact iff_of_false (clientArgs_ne_comma _ _) (List.cons_ne_nil _ _)
        · rw [parted_cons hq, ← ih, comma, if_pos hq, List.cons_append, List.singleton_append,
            listed_fixed_iff, and_iff_right]
          rw [argNames_cons hq]
          exact List.cons_ne_nil _ _

end Texts

/-! ## Reading at the end -/

section Reads

variable {p : Param} {ps : List Param}

theorem pastEnd_separator (p : Param) (ps : List Param) : .pastEnd ∉ separator (p :: ps) := by
  intro h
  rw [separator] at h
  split at h
  · cases List.mem_singleton.mp h
  · cases h

/-- The client's loop reads there when it printed the last parameter. -/
theorem pastEnd_innerArgs (ps : List Param) :
    .pastEnd ∈ StubClient.innerArgs ps ↔ ∃ p ∈ ps.getLast?, p.kind ≠ .exception := by
  induction ps with
  | nil =>
    refine iff_of_false List.not_mem_nil ?_
    rintro ⟨p, hp, -⟩
    cases hp
  | cons p ps ih =>
    by_cases h : p.kind = .exception
    · rw [StubClient.innerArgs, if_pos h, ih]
      cases ps with
      | nil =>
        refine iff_of_false (by rintro ⟨q, hq, -⟩; cases hq) ?_
        rintro ⟨q, hq, hkind⟩
        cases hq
        exact hkind h
      | cons q ps => rw [List.getLast?_cons_cons]
    · rw [StubClient.innerArgs, if_neg h, List.cons_append, List.mem_cons, List.mem_append, ih]
      cases ps with
      | nil => exact iff_of_true (Or.inr (Or.inl (List.mem_singleton.mpr rfl))) ⟨p, rfl, h⟩
      | cons q ps =>
        rw [List.getLast?_cons_cons]
        constructor
        · rintro (h | h | h)
          · cases h
          · exact absurd h (pastEnd_separator q ps)
          · exact h
        · exact fun h => Or.inr (Or.inr h)

/-- The server's loop does whatever the parameters are. -/
theorem pastEnd_implArgs (h : ps ≠ []) : .pastEnd ∈ StubServer.implArgs ps := by
  induction ps with
  | nil => exact absurd rfl h
  | cons p ps ih =>
    rw [StubServer.implArgs, List.mem_append, List.mem_append]
    cases ps with
    | nil => exact Or.inl (Or.inr (List.mem_singleton.mpr rfl))
    | cons q ps => exact Or.inr (ih (List.cons_ne_nil _ _))

theorem pastEnd_declarations {kind : StubKind} {ps : List ArrayParam} (h : ps ≠ []) :
    .pastEnd ∈ StubBase.declarations kind ps := by
  induction ps with
  | nil => exact absurd rfl h
  | cons p ps ih =>
    rw [StubBase.declarations, List.mem_append, List.mem_append]
    cases ps with
    | nil => exact Or.inl (Or.inr (List.mem_singleton.mpr rfl))
    | cons q ps => exact Or.inr (ih (List.cons_ne_nil _ _))

end Reads

/-! ## Functions of one name -/

namespace StubBase

variable {name : String} {kind : StubKind} {isAsync : Bool} {f : Spec} {fs : List Spec}

/-- What is printed for one function. -/
def declaration (kind : StubKind) (isAsync : Bool) (f : Spec) : List Piece :=
  generateFuncParams f.name kind isAsync [f]

theorem declaration_eq (kind : StubKind) (isAsync : Bool) (f : Spec) :
    declaration kind isAsync f =
      (if isAsync then [.text "/* inout */\tcsl::rpc::handle &\t", .tok (.name "__handle"), .tok .comma]
        else []) ++
      (if kind = .server then
        [.text "/* input */\tconst csl::rpc::client_info &\t", .tok (.name "ci"), .tok .comma] else []) ++
      declarations kind f.params ++ [.close] := by
  rw [declaration, generateFuncParams, if_neg (not_not.mpr rfl)]
  rfl

theorem generateFuncParams_eq (fs : List Spec) : generateFuncParams name kind isAsync fs =
    (fs.filter fun f => f.name = name).flatMap (declaration kind isAsync) := by
  induction fs with
  | nil => rfl
  | cons f fs ih =>
    by_cases h : f.name = name
    · rw [List.filter_cons_of_pos (by simp [h]), List.flatMap_cons, ← ih, declaration_eq, generateFuncParams,
        if_neg (not_not.mpr h)]
      exact List.append_cons _ _ _
    · rw [List.filter_cons_of_neg (by simp [h]), ← ih, generateFuncParams, if_pos h]

/-- Names and commas of a declaration. -/
def declToks (kind : StubKind) (isAsync : Bool) (f : Spec) : List Tok :=
  (fixed kind isAsync).flatMap (fun x => [.name x, .comma]) ++ StubServer.callArgs f.toFunc.params

theorem code_declaration (kind : StubKind) (isAsync : Bool) (f : Spec) :
    (declaration kind isAsync f).filter Piece.isCode = (declToks kind isAsync f).map Piece.tok ++ [.close] := by
  rw [declaration_eq, code_append, code_append, code_append, code_declarations, declToks, List.map_append]
  cases isAsync <;> cases kind <;> rfl

theorem declToks_eq_iff (kind : StubKind) (isAsync : Bool) (f : Spec) :
    declToks kind isAsync f = listed (fixed kind isAsync ++ f.names) ↔
      Leads f.toFunc.params ∨ fixed kind isAsync = [] ∧ f.names = [] := by
  have hcall := callArgs_eq_iff f.toFunc.params
  have hlead : Leads f.toFunc.params → f.names ≠ [] := by
    rintro ⟨p, hp, hkind⟩ hnil
    have hmem : p.name ∈ f.names :=
      List.mem_map_of_mem (List.mem_filter.mpr ⟨List.mem_of_mem_head? hp, by simp [hkind]⟩)
    rw [hnil] at hmem
    cases hmem
  have hfixed : f.names ≠ [] ∧ StubServer.callArgs f.toFunc.params = listed f.names ↔
      Leads f.toFunc.params := by
    constructor
    · rintro ⟨hne, h⟩
      exact (hcall.mp h).resolve_right hne
    · exact fun h => ⟨hlead h, hcall.mpr (Or.inl h)⟩
  cases isAsync with
  | false =>
    cases kind with
    | client => exact hcall.trans (or_congr_right (and_iff_right rfl).symm)
    | server =>
      refine ((listed_fixed_iff "ci").trans hfixed).trans (or_iff_left ?_).symm
      exact fun h => absurd h.1 (List.cons_ne_nil _ _)
  | true =>
    have hnot : ¬ (fixed kind true = [] ∧ f.names = []) := fun h => absurd h.1 (List.cons_ne_nil _ _)
    rw [or_iff_left hnot]
    cases kind with
    | client => exact (listed_fixed_iff "__handle").trans hfixed
    | server =>
      refine (listed_fixed_iff "__handle").trans ?_
      refine (and_iff_right (List.cons_ne_nil _ _)).trans ?_
      exact (listed_fixed_iff "ci").trans hfixed

/-- The parentheses tell how many functions there are of the name. -/
theorem one_function {fs : List Spec} {xs : List String}
    (h : Exact (fs.flatMap (declaration kind isAsync)) xs) : fs.length = 1 := by
  have hclose : ∀ ts : List Tok, (ts.map Piece.tok).countP Piece.isClose = 0 := by
    intro ts
    rw [List.countP_map]
    exact List.countP_eq_zero.mpr fun t _ => Bool.false_ne_true
  have hcount : ∀ fs : List Spec, ((fs.flatMap (declaration kind isAsync)).filter Piece.isCode).countP
      Piece.isClose = fs.length := by
    intro fs
    induction fs with
    | nil => rfl
    | cons f fs ih =>
      rw [List.flatMap_cons, code_append, code_declaration, List.countP_append, List.countP_append, ih,
        hclose, List.length_cons]
      exact Nat.add_comm 1 _
  rw [← hcount fs, h, List.countP_append, hclose]
  rfl

theorem generateFuncParams_exact_iff (kind : StubKind) (isAsync : Bool) (hf : f ∈ fs) :
    Exact (generateFuncParams f.name kind isAsync fs) (fixed kind isAsync ++ f.names) ↔
      fs.countP (fun g => g.name = f.name) = 1 ∧
        (Leads f.toFunc.params ∨ fixed kind isAsync = [] ∧ f.names = []) := by
  have hmem : f ∈ fs.filter fun g => g.name = f.name := List.mem_filter.mpr ⟨hf, decide_eq_true rfl⟩
  rw [generateFuncParams_eq, List.countP_eq_length_filter, ← declToks_eq_iff]
  have hone : (fs.filter fun g => g.name = f.name).length = 1 →
      (Exact ((fs.filter fun g => g.name = f.name).flatMap (declaration kind isAsync))
        (fixed kind isAsync ++ f.names) ↔
          declToks kind isAsync f = listed (fixed kind isAsync ++ f.names)) := by
    intro h
    obtain ⟨g, hg⟩ := List.length_eq_one_iff.mp h
    rw [hg] at hmem ⊢
    cases List.mem_singleton.mp hmem
    rw [List.flatMap_singleton, Exact, code_declaration]
    exact exact_tok_iff
  constructor
  · exact fun h => ⟨one_function h, (hone (one_function h)).mp h⟩
  · rintro ⟨h, hdecl⟩
    exact (hone h).mpr hdecl

theorem pastEnd_generateFuncParams (kind : StubKind) (isAsync : Bool) (hf : f ∈ fs) :
    .pastEnd ∈ generateFuncParams f.name kind isAsync fs := by
  rw [generateFuncParams_eq]
  refine List.mem_flatMap.mpr ⟨f, List.mem_filter.mpr ⟨hf, decide_eq_true rfl⟩, ?_⟩
  rw [declaration_eq]
  exact List.mem_append_left _ (List.mem_append_right _ (pastEnd_declarations f.some_param))

end StubBase

variable {f : Spec}

theorem Spec.toFunc_ne (f : Spec) : f.toFunc.params ≠ [] := by
  intro h
  exact f.some_param (List.map_eq_nil_iff.mp h)

/-- The call of the implementation is looked at beyond the parameters. -/
theorem implCall_reads (f : Spec) : ¬ InRange (StubServer.implCall f.toFunc) := by
  intro h
  refine h (List.mem_append_left _ (List.mem_cons_of_mem _ (List.mem_cons_of_mem _ ?_)))
  exact pastEnd_implArgs f.toFunc_ne

theorem innerCall_exact_iff (f : Spec) : Exact (StubClient.innerCall f.toFunc) ("__handle" :: f.names) ↔
    f.names ≠ [] ∧ ¬ Parted f.toFunc.params := by
  have hcode : (StubClient.innerCall f.toFunc).filter Piece.isCode =
      (.name "__handle" :: .comma :: StubClient.callArgs f.toFunc.params).map Piece.tok ++ [.close] := by
    rw [StubClient.innerCall, code_append, List.map_cons, List.map_cons, ← code_innerArgs]
    rfl
  rw [Exact, hcode, exact_tok_iff, listed_fixed_iff]
  exact and_congr_right fun _ => clientArgs_eq_iff f.toFunc.params

theorem innerCall_reads_iff (f : Spec) : InRange (StubClient.innerCall f.toFunc) ↔
    ∃ p ∈ f.toFunc.params.getLast?, p.kind = .exception := by
  have hmem : .pastEnd ∈ StubClient.innerCall f.toFunc ↔ .pastEnd ∈ StubClient.innerArgs f.toFunc.params := by
    constructor
    · intro h
      cases List.mem_append.mp h with
      | inl h =>
        cases h with
        | tail _ h =>
          cases h with
          | tail _ h => exact h
      | inr h => cases List.mem_singleton.mp h
    · exact fun h => List.mem_append_left _ (List.mem_cons_of_mem _ (List.mem_cons_of_mem _ h))
  rw [InRange, hmem, pastEnd_innerArgs]
  obtain ⟨p, hp⟩ := Option.ne_none_iff_exists'.mp fun h => f.toFunc_ne (List.getLast?_eq_none_iff.mp h)
  rw [hp]
  simp

theorem implCall_exact_iff (f : Spec) : Exact (StubServer.implCall f.toFunc) ("ci" :: f.names) ↔
    Leads f.toFunc.params := by
  have hcode : (StubServer.implCall f.toFunc).filter Piece.isCode =
      (StubBase.declToks .server false f).map Piece.tok ++ [.close] := by
    rw [StubServer.implCall, code_append]
    exact congrArg (fun ts => .tok (.name "ci") :: .tok .comma :: ts ++ [.close]) (code_implArgs _)
  rw [Exact, hcode, exact_tok_iff]
  refine (StubBase.declToks_eq_iff .server false f).trans (or_iff_left ?_)
  exact fun h => absurd h.1 (List.cons_ne_nil _ _)

/-- **No function's argument lists are all well formed**: the kind of a parameter is read at the
end of the list; what is right with the texts, and which reads are in range. -/
theorem arguments_fail {fs : List Spec} (hf : f ∈ fs) :
    ¬ WellFormed fs f ∧
    (Exact (StubClient.innerCall f.toFunc) ("__handle" :: f.names) ↔
      f.names ≠ [] ∧ ¬ Parted f.toFunc.params) ∧
    (InRange (StubClient.innerCall f.toFunc) ↔ ∃ p ∈ f.toFunc.params.getLast?, p.kind = .exception) ∧
    (Exact (StubServer.implCall f.toFunc) ("ci" :: f.names) ↔ Leads f.toFunc.params) ∧
    ¬ InRange (StubServer.implCall f.toFunc) ∧
    ∀ k a,
      (Exact (StubBase.generateFuncParams f.name k a (fs ++ [Spec.ping])) (StubBase.fixed k a ++ f.names) ↔
        (fs ++ [Spec.ping]).countP (fun g => g.name = f.name) = 1 ∧
          (Leads f.toFunc.params ∨ StubBase.fixed k a = [] ∧ f.names = [])) ∧
      ¬ InRange (StubBase.generateFuncParams f.name k a (fs ++ [Spec.ping])) := by
  have hf' : f ∈ fs ++ [Spec.ping] := List.mem_append_left _ hf
  refine ⟨fun h => implCall_reads f h.impl_reads, innerCall_exact_iff f, innerCall_reads_iff f,
    implCall_exact_iff f, implCall_reads f, fun k a => ?_⟩
  exact ⟨StubBase.generateFuncParams_exact_iff k a hf',
    fun h => h (StubBase.pastEnd_generateFuncParams k a hf')⟩

/-- A function `add` with one input. -/
def addSpec : Spec :=
  ⟨"add", [⟨⟨"csl::common::int64", "n", .input⟩, false⟩], List.cons_ne_nil _ _⟩

theorem arguments_fail_add : addSpec ∈ [addSpec] ∧ ¬ WellFormed [addSpec] addSpec ∧
    Exact (StubServer.implCall addSpec.toFunc) ["ci", "n"] :=
  have h := arguments_fail (List.mem_singleton.mpr (Eq.refl addSpec))
  ⟨List.mem_singleton.mpr rfl, h.1, h.2.2.2.1.mpr ⟨_, rfl, by decide⟩⟩

theorem wellFormed_fails : ¬ WellFormed [addSpec] addSpec := fun h => implCall_reads addSpec h.impl_reads

end Rpc

end CodeSLoop
