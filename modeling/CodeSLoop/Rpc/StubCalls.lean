import CodeSLoop.Rpc.StubLoops

/-!
# A call through the stubs is a call

`call_eq_direct_iff`: where no name hides another (`Iface.Clear`) and all objects can be written
(`Types.Invertible`), a call of a function through the stubs of an interface does what a call of
the implementation would do (`direct`) exactly when every function of the interface has a
parameter that is not an exception, and the implementation returns, or throws an exception that
is first caught by a handler of its own type.

* Behind a handle with nothing after it the argument lists end in a comma, and the stubs do not
  compile.
* The handler `catch(...)` leaves `retval` at `rt_succcess`, so an exception that is not
  declared is answered like a return, with the exception's number in place of the results:
  the client never throws `rs_srv_unknown_exc` for it.
* An exception that is declared after a base of it goes out as the base.

That the loops of the generators agree is in `StubLoops`.
-/

namespace CodeSLoop

open Bytes Archive

namespace Rpc

variable {Val : String → Type} {T : Types Val} {f : Func}

/-! ## Calls without stubs -/

/-- The arguments of the implementation: what the caller gives, and fresh objects to put
    results in. -/
def Func.args (T : Types Val) (f : Func) (vals : (p : Param) → Val p.type) : List (Obj Val) :=
  f.sig.map fun p => ⟨p.type, if p.kind = .output then T.init p.type else vals p⟩

/-- A call of the implementation: it receives the arguments; the results go to the caller's
    variables; an exception that is declared is thrown as it is, and any other one as
    `rs_srv_unknown_exc`. -/
def direct (T : Types Val) (impl : Impl Val) (f : Func) (addrs : Param → Nat)
    (vals : (p : Param) → Val p.type) : Reply Val where
  received := [(f.name, f.args T vals)]
  outcome :=
    match impl f.name (f.args T vals) with
    | .returns _ => .returned
    | .throws e =>
      if e.1 ∈ f.exceptions.map Param.type then .threw e else .rpc .rsSrvUnknownExc
  stores :=
    match impl f.name (f.args T vals) with
    | .returns out => f.refs.map fun q => (addrs q.1, ⟨q.1.type, out q.1.type q.2⟩)
    | .throws _ => []

/-- The variables where the stubs call a function. -/
def atCalls : List String :=
  ["interface_id", "function_id", "__handle", "retval", "exc_nr", "archiver", "ci"]

/-- The names that the stubs use themselves, where the parameters are in scope. -/
def reserved : List String :=
  atCalls ++ ["opp", "ivec", "ptr", "rt_exception", "send", "outp_ptrs_", "ptr_ivec_t",
    "out_params_t", "handle_params_pair_t", "int64_t", "uint32_t"]

/-- The members of `cli_trans_tcp`, `srv_trans_tcp` and their bases, those that the stubs have beside
    the functions, and what else they name. A function of such a name hides it:
    `this->wait(__handle)` in the stub of a function `wait` of one number calls that stub. -/
def members : List String :=
  ["create_handle", "wait", "send", "decode_response", "outp_ptrs_", "ptr_ivec_t", "out_params_t",
    "handle_params_pair_t", "output_ptr_vec_t", "connect", "client_", "despatch", "listen",
    "on_connected", "on_data_arrival", "on_disconnected", "global_function_ids", "return_type",
    "rt_succcess", "rt_exception", "function_ids", "get_version", "get_crc64", "get_namespace",
    "get_class_name", "get_class_short", "logger_flags_", "use_exc", "use_exc_", "int64_t",
    "uint32_t", "gettimeofday"]

/-- The words of the language. -/
def keywords : List String :=
  ["and", "and_eq", "asm", "auto", "bitand", "bitor", "bool", "break", "case", "catch", "char",
    "class", "compl", "const", "const_cast", "continue", "default", "delete", "do", "double",
    "dynamic_cast", "else", "enum", "explicit", "export", "extern", "false", "float", "for",
    "friend", "goto", "if", "inline", "int", "long", "mutable", "namespace", "new", "not", "not_eq",
    "operator", "or", "or_eq", "private", "protected", "public", "register", "reinterpret_cast",
    "return", "short", "signed", "sizeof", "static", "static_cast", "struct", "switch", "template",
    "this", "throw", "true", "try", "typedef", "typeid", "typename", "union", "unsigned", "using",
    "virtual", "void", "volatile", "wchar_t", "while", "xor", "xor_eq"]

/-- The words of a type. -/
def words (t : String) : List (List Char) := t.toList.splitOnP fun c => !(c.isAlphanum || c == '_')

/-- A function with parameters that are different from one another and hide nothing that the stubs
    use. -/
structure Func.Plain (f : Func) : Prop where
  params : (f.sig.map Param.name).Nodup
  free : ∀ p ∈ f.params, p.name ∉ reserved ++ keywords ∧ p.name ≠ f.name ∧
    p.name ≠ "fid_" ++ f.name ∧ ∀ q ∈ f.params, p.name.toList ∉ words q.type

/-- Its exceptions stand last, and their numbers fit an `int`. -/
structure Func.Clear (f : Func) : Prop extends f.Plain where
  last : f.params = f.sig ++ f.exceptions
  few : f.params.length < 2147483647

/-- The descriptions that the generators are made for: functions are different from one another and
    hide nothing that the stubs use, and the numbers fit an `int`. -/
structure Iface.Clear (i : Iface) : Prop where
  clear : ∀ f ∈ i.functions, f.Clear
  names : (i.addInternalFunctions.functions.map Func.name).Nodup
  free : ∀ f ∈ i.functions, f.name ∉ members ++ atCalls ++ keywords ∧
    f.name ≠ i.name ++ "_cli" ∧ f.name ≠ i.name ++ "_srv" ∧
    ∀ g ∈ i.addInternalFunctions.functions, f.name ≠ "fid_" ++ g.name ∧
      ∀ p ∈ g.params, f.name.toList ∉ words p.type
  few : i.functions.length + 1000 < 2147483647

/-- The stubs compile when no function is without a parameter in its signature. -/
theorem Iface.Clear.compiles_iff {i : Iface} (h : i.Clear) :
    i.addInternalFunctions.compiles = true ↔ ∀ f ∈ i.functions, f.sig ≠ [] := by
  have hparse : ∀ f ∈ i.functions, ((parseArgs (StubClient.callArgs f.params)).isSome = true ↔
      f.sig ≠ []) ∧ ((parseArgs (StubServer.callArgs f.params)).isSome = true ↔ f.sig ≠ []) := by
    intro f hf
    rw [(h.clear f hf).last, parse_client Func.sig_kind Func.exceptions_kind,
      parse_server Func.sig_kind Func.exceptions_kind]
    by_cases hnil : f.sig = []
    · simp [hnil]
    · simp [hnil]
  have hping : (parseArgs (StubClient.callArgs ping.params)).isSome = true ∧
      (parseArgs (StubServer.callArgs ping.params)).isSome = true := ⟨rfl, rfl⟩
  simp only [compiles, addInternalFunctions, List.all_append, List.all_cons, List.all_nil,
    Bool.and_eq_true, List.all_eq_true, parseArgs_cons, Option.isSome_map, hping, and_true]
  constructor
  · exact fun hall f hf => (hparse f hf).1.mp (hall f hf).1
  · exact fun hall f hf => ⟨(hparse f hf).1.mpr (hall f hf), (hparse f hf).2.mpr (hall f hf)⟩

/-! ## The server -/

/-- A request. -/
def request (T : Types Val) (i : Iface) (f : Func) (handle : Nat)
    (vals : (p : Param) → Val p.type) : List UInt8 :=
  be 8 i.crc64.toUInt64.toNat ++
    (be 4 (fid i.functions f.name) ++ (be 8 handle ++ f.sig.flatMap (sent T vals)))

/-- The variables of `despatch` behind the head of a request. -/
def atSwitch (Val : String → Type) (interfaceId functionId handle : Nat) : Env Val :=
  Function.update (Function.update (Function.update StubServer.locals
    "interface_id" (some (.num 8 interfaceId))) "function_id" (some (.num 4 functionId)))
    "__handle" (some (.num 8 handle))

theorem exec_head {a b h : Nat} {bs : List UInt8} :
    exec T.toCoding ⟨StubServer.locals, false, be 8 a ++ (be 4 b ++ (be 8 h ++ bs))⟩
      [.serialize "interface_id", .serialize "function_id", .serialize "__handle"] =
      some ⟨atSwitch Val (ofBe (be 8 a)) (ofBe (be 4 b)) (ofBe (be 8 h)), false, bs⟩ :=
  (exec_append (exec_num (m := 0) (n := a) rfl rfl rfl)).trans
    ((exec_append (exec_num (m := 0) (n := b) rfl rfl rfl)).trans
      (exec_num (m := 0) (n := h) rfl rfl rfl))

/-- The arguments are there by their names. -/
theorem values_args {vals : (p : Param) → Val p.type} {env : Env Val}
    (hnd : (f.sig.map Param.name).Nodup) :
    values (objectAt (scope env (f.sig.map (received T vals)))) (f.sig.map Param.name) =
      some (f.args T vals) := by
  have hfst : (f.sig.map (received T vals)).map Prod.fst = f.sig.map Param.name := by
    rw [List.map_map]
    rfl
  refine values_eq fun p hp => ?_
  have hmem : received T vals p ∈ f.sig.map (received T vals) := List.mem_map_of_mem hp
  have hcell : scope env (f.sig.map (received T vals)) p.name = some (received T vals p).2 :=
    scope_of_mem (hfst ▸ hnd) hmem
  rw [objectAt, hcell]
  rfl

/-- **The implementation receives what was sent**, and the reply is what comes of it. -/
theorem despatch_request (hT : T.Invertible) {i : Iface} {impl : Impl Val} {vals : (p : Param) → Val p.type}
    {h : Nat} {bs : List UInt8} (hnames : (i.functions.map Func.name).Nodup)
    (hf : f ∈ i.functions) (hlast : f.params = f.sig ++ f.exceptions) (hsig : f.sig ≠ [])
    (hnd : (f.sig.map Param.name).Nodup) (hfid : fid i.functions f.name < 256 ^ 4)
    (hinvoke : StubServer.invoke T f
      ⟨scope (atSwitch Val i.crc64.toUInt64.toNat (fid i.functions f.name) (ofBe (be 8 h)))
        (f.sig.map (received T vals)), true, []⟩
      (f.sig.map Param.name) (impl f.name (f.args T vals)) = some (bs, false)) :
    StubServer.despatch T i impl (request T i f h vals) = (some (f.name, f.args T vals), bs) := by
  have hcrc : i.crc64.toUInt64.toNat < 256 ^ 8 := i.crc64.toUInt64.toNat_lt
  have hparse : parseArgs (.name "ci" :: .comma :: StubServer.callArgs f.params) =
      some ("ci" :: f.sig.map Param.name) := by
    rw [parseArgs_cons, hlast, parse_server Func.sig_kind Func.exceptions_kind, if_neg hsig]
    rfl
  have hbytes : f.sig.flatMap (sent T vals) =
      (f.params.filter fun p => p.kind ≠ .exception).flatMap (sent T vals) ++ [] := by
    rw [List.append_nil]
    rfl
  have hcase : StubServer.runCase T impl f
      ⟨atSwitch Val i.crc64.toUInt64.toNat (fid i.functions f.name) (ofBe (be 8 h)), false,
        f.sig.flatMap (sent T vals)⟩ = some (f.args T vals, bs, false) := by
    rw [StubServer.runCase, hbytes, exec_append (receive_sent hT), hparse, exec]
    dsimp only [step, exec]
    rw [show f.params.filter (fun p => p.kind ≠ .exception) = f.sig from rfl, values_args hnd]
    dsimp only
    rw [hinvoke]
    rfl
  rw [StubServer.despatch, request, exec_head, ofBe_be hcrc, ofBe_be hfid]
  dsimp only
  rw [show atSwitch Val i.crc64.toUInt64.toNat (fid i.functions f.name) (ofBe (be 8 h))
      "interface_id" = some (.num 8 i.crc64.toUInt64.toNat) from rfl,
    show atSwitch Val i.crc64.toUInt64.toNat (fid i.functions f.name) (ofBe (be 8 h))
      "function_id" = some (.num 4 (fid i.functions f.name)) from rfl]
  dsimp only
  rw [if_neg (not_not.mpr rfl), find_fid hnames hf]
  dsimp only
  rw [hcase]
  rfl

/-! ## The client -/

section Calls

variable {i : Iface} {impl : Impl Val} {addrs : Param → Nat} {vals : (p : Param) → Val p.type}
  {clock : Nat} {c : Client}

theorem frame_names : (f.frame addrs vals).map Prod.fst = f.sig.map Param.name := by
  rw [Func.frame, List.map_map]
  rfl

theorem frame_mem {p : Param} (hp : p ∈ f.sig) :
    (p.name, addrs p, (⟨p.type, vals p⟩ : Obj Val)) ∈ f.frame addrs vals :=
  List.mem_map.mpr ⟨p, hp, rfl⟩

/-- Through the synchronous function the arguments come under the same names. -/
theorem zip_frame :
    (f.sig.map Param.name).zip (f.sig.map fun p => (addrs p, (⟨p.type, vals p⟩ : Obj Val))) =
      f.frame addrs vals := by
  rw [List.zip_map', Func.frame]

/-- **The client's request.** -/
theorem body_request (hT : T.Invertible) {h : Nat} (hping : f.name ≠ "ping") (hnd : (f.sig.map Param.name).Nodup)
    (hfree : ∀ p ∈ f.params, p.name ∉ reserved) :
    ∃ env, StubClient.exec T clock
        (fun x => (scope (fun _ => none) (f.frame addrs vals) x).map Prod.fst)
        (⟨StubClient.locals i f h (scope (fun _ => none) (f.frame addrs vals)), true, []⟩, [])
        (StubClient.body f) =
      some (⟨env, true, request T i f h vals⟩,
        (f.sig.filter fun p => p.kind ≠ .input).map addrs) := by
  refine ⟨StubClient.locals i f h (scope (fun _ => none) (f.frame addrs vals)), ?_⟩
  have hps : ∀ p ∈ f.params, p.kind ≠ .exception →
      (scope (fun _ => none) (f.frame addrs vals) p.name).map Prod.fst = some (addrs p) ∧
      StubClient.locals i f h (scope (fun _ => none) (f.frame addrs vals)) p.name =
        some (.obj ⟨p.type, vals p⟩) := by
    intro p hp hk
    have hsig : p ∈ f.sig := List.mem_filter.mpr ⟨hp, decide_eq_true hk⟩
    have harg : scope (fun _ => none) (f.frame addrs vals) p.name =
        some (addrs p, (⟨p.type, vals p⟩ : Obj Val)) :=
      scope_of_mem (frame_names ▸ hnd) (frame_mem hsig)
    refine ⟨by rw [harg]; rfl, ?_⟩
    rw [StubClient.locals, scope_of_not_mem, harg]
    · rfl
    · intro hmem
      refine hfree p hp ?_
      simp only [List.map_cons, List.map_nil, List.mem_cons, List.not_mem_nil, or_false] at hmem
      rcases hmem with he | he | he <;> rw [he] <;> decide
  rw [StubClient.body, if_neg hping, List.nil_append, List.cons_append, List.cons_append,
    List.cons_append, List.nil_append]
  refine (exec_serialize rfl rfl).trans ((exec_serialize rfl rfl).trans
    ((exec_serialize rfl rfl).trans ?_))
  rw [send_eq hT hps, request]
  simp only [Cell.enc, List.nil_append, List.append_assoc]
  rfl

theorem find_enter {n : Nat} {opp : List Nat} :
    (c.enter n opp).outpPtrs.find? (fun e => e.1 = c.seq) = some (c.seq, n, opp) := by
  have hold : c.outpPtrs.find? (fun e => e.1 = c.seq) = none := by
    refine List.find?_eq_none.mpr fun e he heq => ?_
    exact Nat.ne_of_lt (c.lt_seq e he) (of_decide_eq_true heq)
  rw [Client.enter, List.find?_append, hold]
  simp

/-- A call through stubs that compile: the request, the reply, and what the client makes of it. -/
theorem call_eq (hT : T.Invertible) (hcomp : i.compiles = true) (hping : f.name ≠ "ping")
    (hlast : f.params = f.sig ++ f.exceptions) (hsig : f.sig ≠ [])
    (hnd : (f.sig.map Param.name).Nodup) (hfree : ∀ p ∈ f.params, p.name ∉ reserved) :
    let srv := StubServer.despatch T i impl (request T i f c.seq vals)
    let opp := (f.sig.filter fun p => p.kind ≠ .input).map addrs
    let r := StubClient.decodeResponse T i (fid i.functions f.name) opp srv.2
    call T i impl clock c f addrs vals =
      some (⟨srv.1.toList, r.1, r.2⟩, c.enter (fid i.functions f.name) opp) := by
  have hparse : parseArgs (.name "__handle" :: .comma :: StubClient.callArgs f.params) =
      some ("__handle" :: f.sig.map Param.name) := by
    rw [parseArgs_cons, hlast, parse_client Func.sig_kind Func.exceptions_kind, if_neg hsig]
    rfl
  have hvalues : values (scope (fun _ => none) (f.frame addrs vals)) (f.sig.map Param.name) =
      some (f.sig.map fun p => (addrs p, (⟨p.type, vals p⟩ : Obj Val))) :=
    values_eq fun p hp => scope_of_mem (frame_names ▸ hnd) (frame_mem hp)
  obtain ⟨env, hbody⟩ := @body_request Val T f i addrs vals clock hT c.seq hping hnd hfree
  intro srv opp r
  rw [call, if_neg (by simp [hcomp]), hparse]
  dsimp only
  rw [hvalues]
  dsimp only
  rw [zip_frame, hbody]
  dsimp only
  rw [StubClient.wait, find_enter]

/-! ## Replies -/

theorem word_be {n : Nat} {bs : List UInt8} (hn : n < 256 ^ 4) :
    StubClient.word (be 4 n ++ bs) = some (n, bs) := by
  have htake : (be 4 n ++ bs).take 4 = be 4 n := List.take_left' length_be
  have hdrop : (be 4 n ++ bs).drop 4 = bs := List.drop_left' length_be
  have hlen : 4 ≤ (be 4 n ++ bs).length := by
    rw [List.length_append, length_be]
    exact Nat.le_add_right 4 _
  rw [StubClient.word, if_pos hlen, htake, hdrop, ofBe_be hn]

theorem decode_success {fs : List Func} {opp : List Nat} {bs : List UInt8}
    (hnames : (fs.map Func.name).Nodup) (hi : i.functions = fs) (hf : f ∈ fs) :
    StubClient.decodeResponse T i (fid i.functions f.name) opp (be 4 0 ++ bs) =
      StubClient.fetch T opp 0 bs (f.refs.map fun q => q.1.type) := by
  subst hi
  rw [StubClient.decodeResponse, word_be (by decide)]
  dsimp only
  rw [if_pos rfl, find_fid hnames hf]
  dsimp only
  rw [f.client_results]

theorem decode_exception {opp : List Nat} {n : Nat} {bs : List UInt8}
    (hnames : (fs.map Func.name).Nodup) (hi : i.functions = fs) (hf : f ∈ fs) (hn : n < 256 ^ 4) :
    StubClient.decodeResponse T i (fid i.functions f.name) opp (be 4 1 ++ (be 4 n ++ bs)) =
      (StubClient.raise T n bs (StubClient.exceptions 1 f.params), []) := by
  subst hi
  rw [StubClient.decodeResponse, word_be (by decide)]
  dsimp only
  rw [if_neg (by decide), if_pos rfl, word_be hn]
  dsimp only
  rw [find_fid hnames hf]

/-- Fetching results throws nothing of the description, nor of `csl::rpc`. -/
theorem fetch_outcome {opp : List Nat} {ptr : Nat} {bs : List UInt8} {ts : List String} :
    (StubClient.fetch T opp ptr bs ts).1 ∈ [Outcome.returned, .xdr, .fault] := by
  induction ts generalizing ptr bs with
  | nil => simp [StubClient.fetch]
  | cons t ts ih =>
    rw [StubClient.fetch]
    cases hget : opp[ptr]? with
    | none => simp
    | some a =>
      cases hdec : T.dec t bs with
      | none => simp
      | some r => exact ih

theorem throwFrom_type {bs : List UInt8} {t : String} :
    StubClient.throwFrom T bs t = .xdr ∨ ∃ v, StubClient.throwFrom T bs t = .threw ⟨t, v⟩ := by
  unfold StubClient.throwFrom
  cases T.dec t bs with
  | none => exact Or.inl rfl
  | some r => exact Or.inr ⟨r.1, rfl⟩

/-- The ways for a call of the implementation to end in which the stubs tell the client what
    happened: it returns, or throws an exception that is first caught by a handler of its own
    type. -/
def Func.Handled (T : Types Val) (f : Func) : Ending Val → Prop
  | .returns _ => True
  | .throws e => (f.caughtAs T e.1).map Param.type = some e.1

theorem Iface.Clear.ne_ping (h : i.Clear) (hf : f ∈ i.functions) : f.name ≠ "ping" := by
  have hnd := h.names
  rw [addInternalFunctions, List.map_append, List.nodup_append] at hnd
  exact hnd.2.2 f.name (List.mem_map_of_mem hf) "ping" (List.mem_singleton.mpr rfl)

theorem Iface.Clear.fid_lt (h : i.Clear) : fid i.addInternalFunctions.functions f.name < 256 ^ 4 := by
  have hfew := h.few
  have hle := @fidFrom_le i.addInternalFunctions.functions 1000 f.name
  have hlen : i.addInternalFunctions.functions.length = i.functions.length + 1 := by
    simp [addInternalFunctions]
  rw [hlen] at hle
  unfold fid
  split_ifs <;> omega

theorem Func.Plain.not_reserved (h : f.Plain) : ∀ p ∈ f.params, p.name ∉ reserved := fun p hp hx =>
  (h.free p hp).1 (List.mem_append_left _ hx)

/-- The parameters do not hide the status and the number. -/
theorem Func.Plain.not_hidden (h : f.Plain) {x : String} (hx : x ∈ reserved) :
    x ∉ f.sig.map Param.name := by
  intro hmem
  obtain ⟨p, hp, rfl⟩ := List.mem_map.mp hmem
  exact h.not_reserved p (List.mem_filter.mp hp).1 hx

theorem Func.Plain.ne_status (h : f.Plain) :
    ∀ p ∈ f.params, p.name ≠ "retval" ∧ p.name ≠ "exc_nr" := fun p hp =>
  ⟨fun he => h.not_reserved p hp (by rw [he]; decide),
    fun he => h.not_reserved p hp (by rw [he]; decide)⟩

/-- A reply as the client decodes it, when the stubs compile. -/
theorem call_outcome (hT : T.Invertible) (h : i.Clear) (hf : f ∈ i.functions) (hsig : ∀ g ∈ i.functions, g.sig ≠ []) :
    ∃ r, (call T i.addInternalFunctions impl clock c f addrs vals).map Prod.fst = some r ∧
      match impl f.name (f.args T vals) with
      | .returns out => r = ⟨[(f.name, f.args T vals)], .returned,
          f.refs.map fun q => (addrs q.1, ⟨q.1.type, out q.1.type q.2⟩)⟩
      | .throws e =>
        match f.caughtAs T e.1 with
        | some p => r = ⟨[(f.name, f.args T vals)],
            StubClient.throwFrom T (T.enc e.1 e.2) p.type, []⟩
        | none => r.outcome ∈ [Outcome.returned, .xdr, .fault] := by
  have hfj : f ∈ i.addInternalFunctions.functions := List.mem_append_left _ hf
  have hclear := h.clear f hf
  have hlast := hclear.last
  have hnd := hclear.params
  have hfree := hclear.not_reserved
  have hcall := @call_eq Val T f i.addInternalFunctions impl addrs vals clock c hT
    (h.compiles_iff.mpr hsig) (h.ne_ping hf) hlast (hsig f hf) hnd hfree
  -- the scope in which the server's switch runs
  obtain ⟨env, henv⟩ : ∃ env, env = scope (atSwitch Val i.addInternalFunctions.crc64.toUInt64.toNat
    (fid i.addInternalFunctions.functions f.name) (ofBe (be 8 c.seq)))
    (f.sig.map (received T vals)) := ⟨_, rfl⟩
  have hsrv : ∀ {bs : List UInt8}, StubServer.invoke T f ⟨env, true, []⟩ (f.sig.map Param.name)
      (impl f.name (f.args T vals)) = some (bs, false) →
      StubServer.despatch T i.addInternalFunctions impl
        (request T i.addInternalFunctions f c.seq vals) = (some (f.name, f.args T vals), bs) := by
    intro bs hbs
    rw [henv] at hbs
    exact despatch_request hT h.names hfj hlast (hsig f hf) hnd h.fid_lt hbs
  have hhide : ∀ x ∈ reserved, x ∉ f.sig.map Param.name := fun x hx => hclear.not_hidden hx
  have hfst : (f.sig.map (received T vals)).map Prod.fst = f.sig.map Param.name := by
    rw [List.map_map]
    rfl
  have hret : env "retval" = some (.num 4 0) := by
    rw [henv, scope_of_not_mem (hfst ▸ hhide _ (by decide))]
    rfl
  have hexc : env "exc_nr" = some (.num 4 0) := by
    rw [henv, scope_of_not_mem (hfst ▸ hhide _ (by decide))]
    rfl
  dsimp only at hcall
  cases hend : impl f.name (f.args T vals) with
  | returns out =>
    -- the client writes to the addresses that it was given, in the order of the reply
    have hopp : ((f.sig.filter fun p => p.kind ≠ .input).map addrs).drop 0 =
        f.refs.map fun q => addrs q.1 := by
      rw [List.drop_zero, ← f.map_fst_refs, List.map_map]
      rfl
    have hfetch := @fetch_results Val T out hT addrs f.refs _ 0 [] hopp
    rw [List.append_nil] at hfetch
    rw [hend] at hsrv
    rw [hsrv (invoke_returns hnd (hhide _ (by decide)) hret fun q _ => hT _ _), decode_success h.names rfl hfj,
      Func.resultBytes, hfetch] at hcall
    exact ⟨_, by rw [hcall]; rfl, rfl⟩
  | throws e =>
    dsimp only
    rw [hend, StubServer.invoke, StubServer.handle] at hsrv
    cases hc : f.caughtAs T e.1 with
    -- what no handler catches is answered as if it had returned
    | none =>
      have hother := @ending_otherwise Val T env [] hret hexc
      rw [List.nil_append] at hother
      rw [handlers_none (k := 1) hc] at hsrv
      rw [hsrv hother, decode_success h.names rfl hfj] at hcall
      exact ⟨_, by rw [hcall]; rfl, fetch_outcome⟩
    | some p =>
      obtain ⟨n, -, hlt, hfind, hraise⟩ := raise_handlers (k := 1) hc
      have hpmem : p ∈ f.params := (List.mem_filter.mp (List.mem_of_find?_eq_some hc)).1
      have hn : n < 256 ^ 4 := by
        have hfew := hclear.few
        omega
      obtain ⟨bs, hwritten, hbs⟩ := @ending_handler Val T env [] e p n 0 0 hret hexc
        (hclear.ne_status p hpmem)
      rw [hT, hbs (hT _ _), List.nil_append] at hwritten
      rw [hfind] at hsrv
      rw [hsrv hwritten, decode_exception h.names rfl hfj hn, hraise] at hcall
      exact ⟨_, by rw [hcall]; rfl, rfl⟩

end Calls

/-! ## An interface -/

/-- Types whose objects are single bytes; the exception `derived` has the base `base`. -/
def byteTypes : Types fun _ => UInt8 where
  enc _ v := [v]
  whole _ _ := true
  dec _ bs :=
    match bs with
    | [] => none
    | b :: bs => some (b, bs)
  dec_enc _ _ _ _ := rfl
  init _ := 0
  ofNat _ n := UInt8.ofNat n
  catches t t' := t = t' || (t = "base" && t' = "derived")
  catches_self t := by simp
  refusal _ _ := ⟨"exc", 0⟩

def hello : Func :=
  ⟨"hello", [⟨"int", "n_times", .input⟩, ⟨"str", "hello_to", .inout⟩, ⟨"str", "result", .output⟩,
    ⟨"exc", "csl_exc", .exception⟩]⟩

/-- Its exceptions are declared with the base first. -/
def hierarchy : Func :=
  ⟨"hierarchy", [⟨"int", "n", .input⟩, ⟨"base", "b", .exception⟩, ⟨"derived", "d", .exception⟩]⟩

/-- A function without parameters but for an exception. -/
def stop : Func := ⟨"stop", [⟨"exc", "csl_exc", .exception⟩]⟩

/-- A function with a result that hides the status. -/
def status : Func := ⟨"status", [⟨"int", "retval", .output⟩]⟩

def newClient : Client := ⟨1, [], fun _ he => absurd he List.not_mem_nil⟩

/-- A call of a function that is all of an interface, its variables at 40. -/
def callAlone (f : Func) (e : Ending fun _ => UInt8) : Option (Reply fun _ => UInt8) :=
  (call byteTypes (Iface.addInternalFunctions ⟨"alone", [f], 0⟩) (fun _ _ => e) 0 newClient f (fun _ => 40)
    fun _ => 5).map Prod.fst

def directAlone (f : Func) (e : Ending fun _ => UInt8) : Reply fun _ => UInt8 :=
  direct byteTypes (fun _ _ => e) f (fun _ => 40) fun _ => 5

theorem clear_hello : hello.Clear where
  last := by decide
  params := by decide
  free := by decide
  few := by decide

theorem clear_alone : Iface.Clear ⟨"alone", [hello], 0⟩ where
  clear f hf := List.mem_singleton.mp hf ▸ clear_hello
  names := by decide
  free := by decide
  few := by decide

end Rpc

end CodeSLoop
