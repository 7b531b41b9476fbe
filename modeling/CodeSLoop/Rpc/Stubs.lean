import CodeSLoop.Lib.Archive

/-!
# The stubs of an interface (`rpc/stub_client.cc`, `rpc/stub_server.cc`)

From the description of an interface, `stub_client::generate` and `stub_server::generate` emit
the code by which a client calls the functions of a server. First the loops that emit, each
translated as it is, with the code they emit as statements (`Lib/Archive`) and, where the code
is an argument list, as tokens; then what the emitted code does, on both sides.

The request is the interface id, the function id, the handle and the values of the input and
inout parameters. The reply is `retval` and, after `rt_succcess`, the values of the output and
inout parameters, after `rt_exception`, the number of the exception and what it holds. Between
the stubs the transport carries the bytes as they are.

Left out of the description are the flags that neither of the two generators reads: arrays and
`disposable`.
-/

namespace CodeSLoop

open Bytes Archive

namespace Rpc

/-! ## Descriptions (`rpc/iface.hh`) -/

/-- `param_kind`. -/
inductive ParamKind
  | input | output | inout | exception
deriving DecidableEq

/-- `iface::param`. -/
structure Param where
  type : String
  name : String
  kind : ParamKind
deriving DecidableEq

/-- `iface::func`. -/
structure Func where
  name : String
  params : List Param

/-- `iface`: its name, its functions, and `ustr( to_string().c_str() ).crc64().value()`. -/
structure Iface where
  name : String
  functions : List Func
  crc64 : Int64

/-- The internal function. -/
def ping : Func :=
  ⟨"ping", [⟨"uint64_t", "client_time", .inout⟩, ⟨"uint64_t", "server_time", .output⟩]⟩

/-- `stub_base::add_internal_functions`, made before anything is emitted. -/
def Iface.addInternalFunctions (i : Iface) : Iface :=
  { i with functions := i.functions ++ [ping] }

/-- The enumeration that `stub_header` emits, from `n` on. -/
def fidFrom (n : Nat) : List Func → String → Nat
  | [], _ => n
  | f :: fs, name =>
    if f.name = "ping" then fidFrom n fs name
    else if f.name = name then n
    else fidFrom (n + 1) fs name

/-- `fid_<name>`. -/
def fid (fs : List Func) (name : String) : Nat := if name = "ping" then 1 else fidFrom 1000 fs name

/-- The parameters in a function's signature (`generate_func_params`); exceptions are comments
    there. -/
def Func.sig (f : Func) : List Param := f.params.filter fun p => p.kind ≠ .exception

/-- The exceptions that a function declares. -/
def Func.exceptions (f : Func) : List Param := f.params.filter fun p => p.kind = .exception

/-! ## Emitted code -/

/-- Argument lists, in tokens. -/
inductive Tok
  | name (x : String) | comma

/-- The arguments of a list, when it is one. -/
def parseArgs : List Tok → Option (List String)
  | [.name x] => some [x]
  | .name x :: .comma :: ts => (parseArgs ts).map (x :: ·)
  | _ => none

/-- `if ( (*param_it).kind!=MD_EXCEPTION && param_it != end() )`, when `ps` are left. -/
def comma (ps : List Param) : List Tok :=
  match ps with
  | p :: _ => if p.kind ≠ .exception then [.comma] else []
  | [] => []

/-- Statements on variables called by their names. -/
abbrev Stmt := Archive.Stmt String String

namespace StubClient

/-- The arguments behind the handle in the synchronous function. -/
def callArgs : List Param → List Tok
  | [] => []
  | p :: ps => if p.kind = .exception then callArgs ps else .name p.name :: comma ps ++ callArgs ps

/-- Statements of the asynchronous function. -/
inductive CliStmt
  | gettimeofday (x : String) | pushBack (x : String) | serialize (x : String)

/-- The loop over the parameters: output pointers, and values to send. -/
def send : List Param → List CliStmt
  | [] => []
  | p :: ps =>
    if p.kind = .exception then send ps
    else (if p.kind = .output ∨ p.kind = .inout then [.pushBack p.name] else []) ++
      (if p.kind ≠ .output then [.serialize p.name] else []) ++ send ps

/-- The body of the asynchronous function up to `send`. -/
def body (f : Func) : List CliStmt :=
  (if f.name = "ping" then [.gettimeofday "client_time"] else []) ++
    [.serialize "interface_id", .serialize "function_id", .serialize "__handle"] ++ send f.params

/-- What `decode_response` does in a case after `rt_succcess`: the types of the pointers that
    are taken from `ivec` and read to. -/
def results : List Param → List String
  | [] => []
  | p :: ps =>
    (if p.kind ≠ .exception ∧ p.kind ≠ .input then [p.type] else []) ++ results ps

/-- What it does in a case after `rt_exception`: the `if`s, with the number compared and the
    type read and thrown. -/
def exceptions (excNr : Nat) : List Param → List (Nat × String)
  | [] => []
  | p :: ps =>
    if p.kind = .exception then (excNr, p.type) :: exceptions (excNr + 1) ps
    else exceptions excNr ps

end StubClient

namespace StubServer

/-- The loop at the head of a case: variables, and values received. -/
def receive : List Param → List Stmt
  | [] => []
  | p :: ps =>
    (if p.kind ≠ .exception then
      .decl p.type p.name :: (if p.kind ≠ .output then [.serialize p.name] else [])
    else []) ++ receive ps

/-- The arguments of the call behind the client info. -/
def callArgs : List Param → List Tok
  | [] => []
  | p :: ps => (if p.kind ≠ .exception then [.name p.name] else []) ++ comma ps ++ callArgs ps

/-- The loop after the call. -/
def results : List Param → List Stmt
  | [] => []
  | p :: ps =>
    (if p.kind = .output ∨ p.kind = .inout then [.serialize p.name] else []) ++ results ps

/-- `catch(<type> & <name>) { … }`. -/
structure Handler where
  type : String
  name : String
  body : List Stmt

/-- The handler of an exception, with its number. -/
def handler (excNr : Nat) (p : Param) : Handler :=
  ⟨p.type, p.name, [.assign "retval" 1, .assign "exc_nr" excNr, .serialize "retval",
    .serialize "exc_nr", .serialize p.name]⟩

/-- The loop that emits the handlers. -/
def handlers (excNr : Nat) : List Param → List Handler
  | [] => []
  | p :: ps =>
    if p.kind = .exception then handler excNr p :: handlers (excNr + 1) ps
    else handlers excNr ps

/-- `catch(...) { … }`. -/
def otherwise : List Stmt := [.serialize "retval", .serialize "exc_nr"]

end StubServer

/-- Every argument list that is emitted is one. -/
def Iface.compiles (i : Iface) : Bool :=
  i.functions.all fun f =>
    (parseArgs (.name "__handle" :: .comma :: StubClient.callArgs f.params)).isSome &&
      (parseArgs (.name "ci" :: .comma :: StubServer.callArgs f.params)).isSome

/-! ## What the server does -/

/-- The types that parameters may have: how `serialize` treats them (`Coding`), whether
    `catch(t & e)` catches an exception of a type, and the `common::exc` that `xdrbuf` throws over
    what it does not write whole. -/
structure Types (Val : String → Type) extends Coding String Val where
  catches : String → String → Bool
  catches_self : ∀ t, catches t t = true
  refusal : (t : String) → Val t → (u : String) × Val u

/-- An object of some type. -/
abbrev Obj (Val : String → Type) := (t : String) × Val t

variable {Val : String → Type}

/-- How a call of the implementation ends: with values for the references among its arguments,
    by their type and place, or by an exception. -/
inductive Ending (Val : String → Type)
  | returns (out : (t : String) → Nat → Val t)
  | throws (e : Obj Val)

/-- The implementation of the server: for a function, from its arguments. -/
abbrev Impl (Val : String → Type) := String → List (Obj Val) → Ending Val

abbrev Env (Val : String → Type) := String → Option (Cell Val)

/-- The object that a variable is. -/
def objectAt (env : Env Val) (x : String) : Option (Obj Val) :=
  match env x with
  | some (.obj o) => some o
  | _ => none

/-- The variables after the call: those that are bound to references hold what was put there. -/
def passBack (out : (t : String) → Nat → Val t) (i : Nat) (env : Env Val) :
    List Param → List String → Env Val
  | p :: ps, x :: xs =>
    passBack out (i + 1)
      (if p.kind = .input then env else Function.update env x (some (.obj ⟨p.type, out p.type i⟩)))
      ps xs
  | _, _ => env

namespace StubServer

variable (T : Types Val)

/-- The handlers of the `try` block, for something thrown in it: what is in the archive at the end,
    and whether something is thrown in the handler. -/
def handle (f : Func) (s : State String Val) (e : Obj Val) : Option (List UInt8 × Bool) :=
  match (handlers 1 f.params).find? fun h => T.catches h.type e.1 with
  | some h =>
    ending T.toCoding { s with env := Function.update s.env h.name (some (.obj e)) } h.body
  | none => ending T.toCoding s otherwise

/-- The `try` block from the call on, and its handlers. What the implementation has put to its
    references is in the variables also when writing it to the archive throws. -/
def invoke (f : Func) (s : State String Val) (xs : List String) :
    Ending Val → Option (List UInt8 × Bool)
  | .returns out =>
    match exec T.toCoding { s with env := passBack out 0 s.env f.sig xs }
      (.serialize "retval" :: results f.params) with
    | some s => some (s.buf, false)
    | none =>
      (raised T.toCoding { s with env := passBack out 0 s.env f.sig xs }
        (.serialize "retval" :: results f.params)).bind fun r =>
          handle T f r.2 (T.refusal r.1.1 r.1.2)
  | .throws e => handle T f s e

/-- One case of `despatch`: the arguments that the implementation gets, what is in the archive then,
    and whether something is thrown in a handler. -/
def runCase (impl : Impl Val) (f : Func) (s : State String Val) :
    Option (List (Obj Val) × List UInt8 × Bool) :=
  match exec T.toCoding s (receive f.params ++ [.turn]),
    parseArgs (.name "ci" :: .comma :: callArgs f.params) with
  | some s, some (_ :: xs) =>
    match values (objectAt s.env) xs with
    | some os => (invoke T f s xs (impl f.name os)).map fun bs => (os, bs)
    | none => none
  | _, _ => none

/-- The local variables of `despatch`. -/
def locals : Env Val :=
  scope (fun _ => none) [("interface_id", .num 8 0), ("function_id", .num 4 0),
    ("__handle", .num 8 0), ("retval", .num 4 0), ("exc_nr", .num 4 0)]

/-- `despatch`, and what `on_data_arrival` sends back: the call of the implementation, and what
    is in the archive at the end. An unknown interface empties the archive, an unknown function
    leaves the request in it; when an exception of `xdrbuf` comes through, nothing is sent. -/
def despatch (i : Iface) (impl : Impl Val) (request : List UInt8) :
    Option (String × List (Obj Val)) × List UInt8 :=
  match exec T.toCoding ⟨locals, false, request⟩
    [.serialize "interface_id", .serialize "function_id", .serialize "__handle"] with
  | none => (none, [])
  | some s =>
    match s.env "interface_id", s.env "function_id" with
    | some (.num _ interfaceId), some (.num _ functionId) =>
      if interfaceId ≠ i.crc64.toUInt64.toNat then (none, [])
      else
        match i.functions.find? fun f => fid i.functions f.name = functionId with
        | none => (none, request)
        | some f =>
          match runCase T impl f s with
          | none => (none, [])
          | some (os, bs, thrown) => (some (f.name, os), if thrown then [] else bs)
    | _, _ => (none, [])

end StubServer

/-! ## What the client does -/

/-- The exceptions of `csl::rpc::exc` that are thrown here. -/
inductive RpcExc
  | rsInvalidParam | rsInvalidHandle | rsSrvUnknownExc | rsInvalidFid
deriving DecidableEq

/-- How a call ends at the client: it returns, or throws — an exception of a type of the
    description, of `csl::rpc`, or of `xdrbuf` — or follows a pointer that is not there. -/
inductive Outcome (Val : String → Type)
  | returned | threw (e : Obj Val) | rpc (r : RpcExc) | xdr | fault

/-- What comes of a call: the calls of the implementation, the way it ends, and what was put to
    the caller's variables. -/
structure Reply (Val : String → Type) where
  received : List (String × List (Obj Val))
  outcome : Outcome Val
  stores : List (Nat × Obj Val)

/-- `__handle_sequence`, and `outp_ptrs_` with the pointers kept for a handle. -/
structure Client where
  seq : Nat
  outpPtrs : List (Nat × Nat × List Nat)
  lt_seq : ∀ e ∈ outpPtrs, e.1 < seq

/-- `create_handle`, and at the end of the function `outp_ptrs_.insert`. -/
def Client.enter (c : Client) (functionId : Nat) (opp : List Nat) : Client where
  seq := c.seq + 1
  outpPtrs := c.outpPtrs ++ [(c.seq, functionId, opp)]
  lt_seq := by
    intro e he
    rcases List.mem_append.mp he with hold | hnew
    · exact Nat.lt_succ_of_lt (c.lt_seq e hold)
    · rw [List.mem_singleton.mp hnew]
      exact Nat.lt_succ_self _

namespace StubClient

variable (T : Types Val)

/-- One statement, with `opp` beside the archive; `ptrs` are the addresses of the parameters. -/
def step (clock : Nat) (ptrs : String → Option Nat) (s : State String Val × List Nat) :
    CliStmt → Option (State String Val × List Nat)
  | .gettimeofday x => (Archive.step T.toCoding s.1 (.assign x clock)).map fun a => (a, s.2)
  | .pushBack x => (ptrs x).map fun a => (s.1, s.2 ++ [a])
  | .serialize x => (Archive.step T.toCoding s.1 (.serialize x)).map fun a => (a, s.2)

def exec (clock : Nat) (ptrs : String → Option Nat) (s : State String Val × List Nat) :
    List CliStmt → Option (State String Val × List Nat)
  | [] => some s
  | st :: sts =>
    match step T clock ptrs s st with
    | none => none
    | some s => exec clock ptrs s sts

/-- A case after `rt_succcess`, from `ptr` on. -/
def fetch (ivec : List Nat) (ptr : Nat) (bs : List UInt8) :
    List String → Outcome Val × List (Nat × Obj Val)
  | [] => (.returned, [])
  | t :: ts =>
    match ivec[ptr]?, T.dec t bs with
    | none, _ => (.fault, [])
    | some _, none => (.xdr, [])
    | some a, some (v, bs) =>
      let r := fetch ivec (ptr + 1) bs ts
      (r.1, (a, ⟨t, v⟩) :: r.2)

/-- `<type> <name>(L""); archiver.serialize( <name> ); throw <name>;`. -/
def throwFrom (bs : List UInt8) (t : String) : Outcome Val :=
  match T.dec t bs with
  | none => .xdr
  | some (v, _) => .threw ⟨t, v⟩

/-- A case after `rt_exception`. -/
def raise (excNr : Nat) (bs : List UInt8) : List (Nat × String) → Outcome Val
  | [] => if excNr = 0 then .rpc .rsSrvUnknownExc else .returned
  | (n, t) :: es => if excNr = n then throwFrom T bs t else raise excNr bs es

/-- A number of four bytes, and the bytes behind it. -/
def word (bs : List UInt8) : Option (Nat × List UInt8) :=
  if 4 ≤ bs.length then some (ofBe (bs.take 4), bs.drop 4) else none

/-- `decode_response`. -/
def decodeResponse (i : Iface) (functionId : Nat) (ivec : List Nat) (bs : List UInt8) :
    Outcome Val × List (Nat × Obj Val) :=
  match word bs with
  | none => (.xdr, [])
  | some (retval, bs) =>
    if retval = 0 then
      match i.functions.find? fun f => fid i.functions f.name = functionId with
      | none => (.rpc .rsInvalidFid, [])
      | some f => fetch T ivec 0 bs (results f.params)
    else if retval = 1 then
      match word bs with
      | none => (.xdr, [])
      | some (excNr, bs) =>
        match i.functions.find? fun f => fid i.functions f.name = functionId with
        | none => (.rpc .rsInvalidFid, [])
        | some f => (raise T excNr bs (exceptions 1 f.params), [])
    else (.rpc .rsInvalidParam, [])

/-- `wait`, when the reply is there. -/
def wait (i : Iface) (c : Client) (handle : Nat) (bs : List UInt8) :
    Outcome Val × List (Nat × Obj Val) :=
  match c.outpPtrs.find? fun e => e.1 = handle with
  | none => (.rpc .rsInvalidHandle, [])
  | some (_, functionId, ivec) => decodeResponse T i functionId ivec bs

end StubClient

/-! ## Calls -/

/-- A parameter as the caller fills it: the address of its variable, and the value there. -/
abbrev Arg (Val : String → Type) := Nat × Obj Val

/-- The caller's arguments by the names of the parameters. -/
def Func.frame (f : Func) (addrs : Param → Nat) (vals : (p : Param) → Val p.type) :
    List (String × Arg Val) :=
  f.sig.map fun p => (p.name, addrs p, ⟨p.type, vals p⟩)

/-- The local variables of the asynchronous function over its parameters. -/
def StubClient.locals (i : Iface) (f : Func) (handle : Nat) (args : String → Option (Arg Val)) :
    Env Val :=
  scope (fun x => (args x).map fun a => .obj a.2)
    [("interface_id", .num 8 i.crc64.toUInt64.toNat), ("function_id", .num 4 (fid i.functions f.name)),
      ("__handle", .num 8 handle)]

/-- A call of the synchronous function at a client, and the client after it. The caller's
    variables are at `addrs` and hold `vals`. There is none when the stubs do not compile, or when
    `xdrbuf` throws over an argument. -/
def call (T : Types Val) (i : Iface) (impl : Impl Val) (clock : Nat) (c : Client) (f : Func)
    (addrs : Param → Nat) (vals : (p : Param) → Val p.type) : Option (Reply Val × Client) :=
  if ¬ i.compiles then none
  else
    match parseArgs (.name "__handle" :: .comma :: StubClient.callArgs f.params) with
    | some (_ :: xs) =>
      match values (scope (fun _ => none) (f.frame addrs vals)) xs with
      | none => none
      | some as =>
        let args := scope (fun _ => none) ((f.sig.map Param.name).zip as)
        match StubClient.exec T clock (fun x => (args x).map Prod.fst)
          (⟨StubClient.locals i f c.seq args, true, []⟩, []) (StubClient.body f) with
        | none => none
        | some (s, opp) =>
          let srv := StubServer.despatch T i impl s.buf
          let c' := c.enter (fid i.functions f.name) opp
          let r := StubClient.wait T i c' c.seq srv.2
          some (⟨srv.1.toList, r.1, r.2⟩, c')
    | _ => none

end Rpc

end CodeSLoop
