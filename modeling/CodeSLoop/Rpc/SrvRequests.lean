import CodeSLoop.Rpc.StubCalls
import CodeSLoop.Rpc.TransTcp

/-!
# Requests that are no requests

Anything may come as a request: too few bytes, the id of another interface or of no function,
parameters that cannot be read. `requests_answered_iff` says which byte strings `on_data_arrival`
gets over with a generated `despatch` behind it: it returns, calls the implementation only with
parameters that were read, and sends an error or nothing when it does not call it.

Before the theorem, what one case of `despatch` comes to: it receives what `readParams` reads
(`receive_eq`), and then whether something leaves it is a matter of how the implementation ends
(`runCase_some`).

* What `xdrbuf` throws is a `common::exc`, and `on_data_arrival` catches `rpc::exc` only; so a
  request that is cut short, or has bad parameters, ends the worker.
* `xdrbuf` throws the same over an empty string among the results, behind the call. That is caught
  where `despatch` has a handler for it, but the handler puts the exception itself into the archive,
  and over the empty string in that one `xdrbuf` throws again.
* For an interface that is not this one the archive is emptied first; for a function that is not
  there it is not, and the request goes back as it came.
-/

namespace CodeSLoop

open Bytes Archive

namespace Rpc

variable {Val : String → Type} (T : Types Val)

namespace StubServer

/-- `despatch` with all that it leaves; what was called before is the state of the server. An
    unknown interface empties the archive, and for everything else that is thrown the archive
    has still the request. -/
def run (i : Iface) (impl : Impl Val) : Despatch (List (String × List (Obj Val))) := fun calls pb =>
  match exec T.toCoding ⟨locals, false, pb.bytes⟩
    [.serialize "interface_id", .serialize "function_id", .serialize "__handle"] with
  | none => ⟨calls, some .common, pb⟩
  | some s =>
    match s.env "interface_id", s.env "function_id" with
    | some (.num _ interfaceId), some (.num _ functionId) =>
      if interfaceId ≠ i.crc64.toUInt64.toNat then ⟨calls, some .rpc, .init⟩
      else
        match i.functions.find? fun f => fid i.functions f.name = functionId with
        | none => ⟨calls, some .rpc, pb⟩
        | some f =>
          match runCase T impl f s with
          | none => ⟨calls, some .common, pb⟩
          | some (os, bs, thrown) =>
            ⟨calls ++ [(f.name, os)], if thrown then some .common else none, toPbuf bs⟩
    | _, _ => ⟨calls, some .common, pb⟩

/-- The local variables when the header has been read. -/
def header (bs : List UInt8) : Env Val :=
  Function.update (Function.update (Function.update locals "interface_id"
    (some (.num 8 (ofBe (bs.take 8))))) "function_id"
    (some (.num 4 (ofBe ((bs.drop 8).take 4))))) "__handle"
    (some (.num 8 (ofBe ((bs.drop 12).take 8))))

/-- The header has 20 bytes. -/
theorem exec_header (bs : List UInt8) : exec T.toCoding ⟨locals, false, bs⟩
    [.serialize "interface_id", .serialize "function_id", .serialize "__handle"] =
      if 20 ≤ bs.length then some ⟨header bs, false, bs.drop 20⟩ else none := by
  have hlen : 20 ≤ bs.length ↔ 8 ≤ bs.length ∧ 4 ≤ bs.length - 8 ∧ 8 ≤ bs.length - 12 := by omega
  by_cases h8 : 8 ≤ bs.length
  · by_cases h12 : 4 ≤ bs.length - 8
    · by_cases h20 : 8 ≤ bs.length - 12
      · rw [if_pos (hlen.mpr ⟨h8, h12, h20⟩)]
        simp [exec, step, locals, scope, header, Cell.dec, h8, h12, h20, Function.update_of_ne]
      · rw [if_neg fun h => h20 (hlen.mp h).2.2]
        simp [exec, step, locals, scope, Cell.dec, h8, h12, h20, Function.update_of_ne]
    · rw [if_neg fun h => h12 (hlen.mp h).2.1]
      simp [exec, step, locals, scope, Cell.dec, h8, h12, Function.update_of_ne]
  · rw [if_neg fun h => h8 (hlen.mp h).1]
    simp [exec, step, locals, scope, Cell.dec, h8, Function.update_of_ne]

theorem header_ids (bs : List UInt8) :
    (header bs : Env Val) "interface_id" = some (.num 8 (ofBe (bs.take 8))) ∧
      (header bs : Env Val) "function_id" = some (.num 4 (ofBe ((bs.drop 8).take 4))) := by
  constructor <;> simp [header, Function.update_of_ne]

/-- The function that a request names. -/
def named (i : Iface) (bs : List UInt8) : Option Func :=
  i.functions.find? fun f => fid i.functions f.name = ofBe ((bs.drop 8).take 4)

/-- Is the request for this interface? -/
abbrev forIface (i : Iface) (bs : List UInt8) : Prop := ofBe (bs.take 8) = i.crc64.toUInt64.toNat

/-- `despatch`, with the header read. -/
theorem run_eq (i : Iface) (impl : Impl Val) (calls : List (String × List (Obj Val))) (pb : Pbuf) :
    run T i impl calls pb =
      if 20 ≤ pb.bytes.length then
        if forIface i pb.bytes then
          match named i pb.bytes with
          | none => ⟨calls, some .rpc, pb⟩
          | some f =>
            match runCase T impl f ⟨header pb.bytes, false, pb.bytes.drop 20⟩ with
            | none => ⟨calls, some .common, pb⟩
            | some (os, bs, thrown) =>
              ⟨calls ++ [(f.name, os)], if thrown then some .common else none, toPbuf bs⟩
        else ⟨calls, some .rpc, .init⟩
      else ⟨calls, some .common, pb⟩ := by
  obtain ⟨hi, hf⟩ := @header_ids Val pb.bytes
  unfold run
  rw [exec_header]
  by_cases hlen : 20 ≤ pb.bytes.length
  · simp only [if_pos hlen, hi, hf, forIface, named, ne_eq, ite_not]
  · simp only [if_neg hlen]

/-- `despatch` of `Rpc/Stubs` is what comes of it: the call, and what is sent. -/
theorem despatch_eq (i : Iface) (impl : Impl Val) (request : List UInt8) :
    despatch T i impl request =
      ((run T i impl [] (toPbuf request)).app.head?,
        if SrvTransTcp.Caught (run T i impl [] (toPbuf request)).thrown
        then (run T i impl [] (toPbuf request)).pbuf.bytes else []) := by
  have hcommon : ¬ SrvTransTcp.Caught (some Thrown.common) := by decide
  have hrpc : SrvTransTcp.Caught (some Thrown.rpc) := by decide
  have hnone : SrvTransTcp.Caught none := by decide
  obtain ⟨hi, hf⟩ := @header_ids Val request
  unfold despatch
  rw [exec_header, run_eq, bytes_toPbuf]
  by_cases hlen : 20 ≤ request.length
  · simp only [if_pos hlen, hi, hf, forIface, named, ne_eq, ite_not]
    by_cases hfor : ofBe (request.take 8) = i.crc64.toUInt64.toNat
    · simp only [if_pos hfor]
      generalize i.functions.find? (fun f => fid i.functions f.name =
        ofBe ((request.drop 8).take 4)) = found
      rcases found with _ | f
      · simp [hrpc]
      · dsimp only
        rcases Option.eq_none_or_eq_some (runCase T impl f
          ⟨header request, false, request.drop 20⟩) with hr | ⟨r, hr⟩
        · simp [hr, hcommon]
        · obtain ⟨os, bs, thrown⟩ := r
          cases thrown
          · simp [hr, hnone]
          · simp [hr, hcommon]
    · simp [if_neg hfor, hrpc]
  · simp [if_neg hlen, hcommon]

/-! ## When a case runs -/

variable {T} {f : Func} {ps : List Param} {s s' : State String Val}

/-- The arguments that are made of a request, and what is left of it when they have been read. -/
def readParams (T : Types Val) : List Param → List UInt8 → Option (List (Obj Val) × List UInt8)
  | [], bs => some ([], bs)
  | p :: ps, bs =>
    match p.kind with
    | .exception => readParams T ps bs
    | .output => (readParams T ps bs).map fun r => (⟨p.type, T.init p.type⟩ :: r.1, r.2)
    | .input | .inout =>
      (T.dec p.type bs).bind fun v =>
        (readParams T ps v.2).map fun r => (⟨p.type, v.1⟩ :: r.1, r.2)

/-- The parameters as variables of these values. -/
def bound (ps : List Param) (os : List (Obj Val)) : List (String × Cell Val) :=
  ((ps.filter fun p => p.kind ≠ .exception).zip os).map fun q => (q.1.name, .obj q.2)

theorem bound_exception {p : Param} {os : List (Obj Val)} (hk : p.kind = .exception) :
    bound (p :: ps) os = bound ps os := by
  rw [bound, List.filter_cons_of_neg (by simp [hk])]
  rfl

theorem bound_cons {p : Param} {o : Obj Val} {os : List (Obj Val)} (hk : p.kind ≠ .exception) :
    bound (p :: ps) (o :: os) = (p.name, .obj o) :: bound ps os := by
  rw [bound, List.filter_cons_of_pos (by simp [hk])]
  rfl

/-- The loop at the head of a case declares the parameters with what is read. -/
theorem receive_eq {env : Env Val} {bs : List UInt8} :
    exec T.toCoding ⟨env, false, bs⟩ (receive ps) =
      (readParams T ps bs).map fun r => ⟨scope env (bound ps r.1), false, r.2⟩ := by
  induction ps generalizing env bs with
  | nil => rfl
  | cons p ps ih =>
    cases hk : p.kind with
    | exception =>
      simp only [receive, readParams, hk, bound_exception hk, ne_eq, not_true_eq_false, if_false]
      exact ih
    | output =>
      simp only [receive, readParams, hk, Option.map_map]
      refine (@ih (Function.update env p.name (some (.obj ⟨p.type, T.init p.type⟩))) bs).trans ?_
      refine congrArg (Option.map · (readParams T ps bs)) (funext fun r => ?_)
      rw [Function.comp_apply, bound_cons (by rw [hk]; decide), scope]
    | input | inout =>
      simp only [receive, readParams, hk]
      have hread := exec_declare (c := T.toCoding) (t := p.type) (x := p.name)
        (s := ⟨env, false, bs⟩) rfl
      cases hdec : T.dec p.type bs with
      | none =>
        rw [hdec] at hread
        exact exec_append_none hread
      | some v =>
        rw [hdec] at hread
        refine (exec_append hread).trans ((@ih _ v.2).trans ?_)
        rw [Option.bind_some, Option.map_map]
        refine congrArg (Option.map · (readParams T ps v.2)) (funext fun r => ?_)
        rw [Function.comp_apply, bound_cons (by rw [hk]; decide), scope]

/-- There is an argument for each parameter of the signature. -/
theorem length_readParams {bs bs' : List UInt8} {os : List (Obj Val)}
    (h : readParams T ps bs = some (os, bs')) :
    os.length = (ps.filter fun p => p.kind ≠ .exception).length := by
  induction ps generalizing bs os with
  | nil =>
    cases h
    rfl
  | cons p ps ih =>
    cases hk : p.kind with
    | exception =>
      simp only [readParams, hk] at h
      rw [List.filter_cons_of_neg (by simp [hk])]
      exact ih h
    | output =>
      simp only [readParams, hk, Option.map_eq_some_iff] at h
      obtain ⟨r, hr, he⟩ := h
      cases he
      rw [List.filter_cons_of_pos (by simp [hk]), List.length_cons, List.length_cons, ih hr]
    | input | inout =>
      simp only [readParams, hk, Option.bind_eq_some_iff, Option.map_eq_some_iff] at h
      obtain ⟨v, -, r, hr, he⟩ := h
      cases he
      rw [List.filter_cons_of_pos (by simp [hk]), List.length_cons, List.length_cons, ih hr]

/-- The call gets the values that were read. -/
theorem values_bound {env : Env Val} {os : List (Obj Val)} (hnd : (f.sig.map Param.name).Nodup)
    (hlen : os.length = f.sig.length) :
    values (objectAt (scope env (bound f.params os))) (f.sig.map Param.name) = some os := by
  have hfst : (f.sig.zip os).map Prod.fst = f.sig := List.map_fst_zip hlen.ge
  have hsnd : (f.sig.zip os).map Prod.snd = os := List.map_snd_zip hlen.le
  have hnames : (bound f.params os).map Prod.fst = f.sig.map Param.name := by
    conv_rhs => rw [← hfst]
    rw [bound, List.map_map, List.map_map]
    rfl
  have hvalues : values (objectAt (scope env (bound f.params os)))
      ((f.sig.zip os).map fun q => q.1.name) = some ((f.sig.zip os).map Prod.snd) := by
    refine values_eq fun q hq => ?_
    have hmem : (q.1.name, Cell.obj q.2) ∈ bound f.params os := List.mem_map_of_mem hq
    rw [objectAt, scope_of_mem (hnames ▸ hnd) hmem]
  rw [hsnd] at hvalues
  refine Eq.trans (congrArg _ ?_) hvalues
  conv_lhs => rw [← hfst]
  rw [List.map_map]
  rfl

/-- A case whose parameters cannot be read. -/
theorem runCase_none {impl : Impl Val} {env : Env Val} {bs : List UInt8}
    (h : readParams T f.params bs = none) : runCase T impl f ⟨env, false, bs⟩ = none := by
  have hreceive : exec T.toCoding ⟨env, false, bs⟩ (receive f.params) = none := by
    rw [receive_eq, h]
    rfl
  rw [runCase, exec_append_none hreceive]

/-- **A case** whose parameters can be read calls the implementation with them. -/
theorem runCase_some {impl : Impl Val} {env : Env Val} {bs bs' : List UInt8} {os : List (Obj Val)}
    (hf : f.Plain) (hargs : (parseArgs (.name "ci" :: .comma :: callArgs f.params)).isSome)
    (hret : env "retval" = some (.num 4 0)) (hexc : env "exc_nr" = some (.num 4 0))
    (h : readParams T f.params bs = some (os, bs')) :
    ∃ reply, runCase T impl f ⟨env, false, bs⟩ =
      some (os, reply, f.leaves T (impl f.name os)) := by
  have hlen := length_readParams h
  have hparse : parseArgs (.name "ci" :: .comma :: callArgs f.params) =
      some ("ci" :: f.sig.map Param.name) := by
    obtain ⟨xs, hxs⟩ := Option.isSome_iff_exists.mp hargs
    rw [hxs, parse_argsIn hxs, argsIn, argsIn, argsIn_server, Func.sig]
  have hreceive : exec T.toCoding ⟨env, false, bs⟩ (receive f.params) =
      some ⟨scope env (bound f.params os), false, bs'⟩ := by
    rw [receive_eq, h]
    rfl
  -- the status and the number are not hidden
  have hkeep : ∀ x ∈ reserved, scope env (bound f.params os) x = env x := by
    intro x hx
    refine scope_of_not_mem fun hmem => hf.not_hidden hx ?_
    obtain ⟨q, hq, rfl⟩ := List.mem_map.mp hmem
    obtain ⟨r, hr, rfl⟩ := List.mem_map.mp hq
    exact List.mem_map_of_mem (List.of_mem_zip hr).1
  obtain ⟨reply, hreply⟩ := @invoke_leaves Val T f (scope env (bound f.params os)) hf.params
    hf.ne_status ((hkeep _ (by decide)).trans hret) ((hkeep _ (by decide)).trans hexc)
    (impl f.name os)
  refine ⟨reply, ?_⟩
  rw [runCase, exec_append hreceive, hparse]
  dsimp only [exec, step]
  rw [values_bound hf.params hlen]
  dsimp only
  rw [hreply]
  rfl

end StubServer

/-! ## Requests that are answered -/

section Requests

variable {T} {i : Iface} {impl : Impl Val} {b : Bfd}

/-- The request names a function, and has all of its parameters. -/
def Complete (T : Types Val) (i : Iface) (bs : List UInt8) : Prop :=
  ∃ f, StubServer.named i bs = some f ∧ (StubServer.readParams T f.params (bs.drop 20)).isSome

/-- It does, and the implementation answers it so that nothing leaves the handlers. -/
def Served (T : Types Val) (i : Iface) (impl : Impl Val) (bs : List UInt8) : Prop :=
  ∃ f r, StubServer.named i bs = some f ∧ StubServer.readParams T f.params (bs.drop 20) = some r ∧
    f.leaves T (impl f.name r.1) = false

theorem Served.complete {i : Iface} {impl : Impl Val} {bs : List UInt8} (h : Served T i impl bs) :
    Complete T i bs := by
  obtain ⟨f, r, hf, hr, -⟩ := h
  exact ⟨f, hf, hr ▸ rfl⟩

/-- A reply that tells of an error: `rt_exception`, a number, and what belongs to it. -/
def ErrorReply (bs : List UInt8) : Prop := ∃ n tail, bs = be 4 1 ++ (be 4 n ++ tail)

/-- How a request should be handled, whatever was called before and whatever `::send` returns:
    `on_data_arrival` returns, calls a function only with all of its parameters, and if it calls
    none sends nothing, or an error that is not what it was sent. -/
def Answered (T : Types Val) (i : Iface) (impl : Impl Val) (b : Bfd) : Prop :=
  ∀ calls errs, ∃ a,
    SrvTransTcp.onDataArrival (StubServer.run T i impl) calls b errs = some a ∧
    a.thrown = none ∧ (a.app ≠ calls → Complete T i b.buf.unread) ∧
    (a.app = calls → a.sent = [] ∨ ErrorReply a.sent ∧ a.sent ≠ b.buf.unread)

/-- The requests with a header, and either for another interface or served. -/
def Answerable (T : Types Val) (i : Iface) (impl : Impl Val) (bs : List UInt8) : Prop :=
  bs = [] ∨ 20 ≤ bs.length ∧ (StubServer.forIface i bs → Served T i impl bs)

/-- Where the stubs compile, the call of the implementation does. -/
theorem isSome_implArgs {f : Func} (hc : i.compiles) (hmem : f ∈ i.functions) :
    (parseArgs (.name "ci" :: .comma :: StubServer.callArgs f.params)).isSome :=
  ((Bool.and_eq_true _ _).mp (List.all_eq_true.mp hc f hmem)).2

/-- The ways that a `despatch` may end. -/
theorem run_cases (T : Types Val) (impl : Impl Val) (hc : i.compiles)
    (hplain : ∀ f ∈ i.functions, f.Plain) (calls : List (String × List (Obj Val))) (pb : Pbuf) :
    (pb.bytes.length < 20 ∧ (StubServer.run T i impl calls pb).thrown = some .common) ∨
    (20 ≤ pb.bytes.length ∧ ¬ StubServer.forIface i pb.bytes ∧
      StubServer.run T i impl calls pb = ⟨calls, some .rpc, .init⟩) ∨
    (20 ≤ pb.bytes.length ∧ StubServer.forIface i pb.bytes ∧
      StubServer.named i pb.bytes = none ∧
      StubServer.run T i impl calls pb = ⟨calls, some .rpc, pb⟩) ∨
    (20 ≤ pb.bytes.length ∧ StubServer.forIface i pb.bytes ∧ ¬ Served T i impl pb.bytes ∧
      (StubServer.run T i impl calls pb).thrown = some .common) ∨
    (20 ≤ pb.bytes.length ∧ Served T i impl pb.bytes ∧
      (StubServer.run T i impl calls pb).thrown = none ∧
      (StubServer.run T i impl calls pb).app ≠ calls) := by
  rw [StubServer.run_eq]
  by_cases hlen : 20 ≤ pb.bytes.length
  · rw [if_pos hlen]
    by_cases hfor : StubServer.forIface i pb.bytes
    · rw [if_pos hfor]
      rcases Option.eq_none_or_eq_some (StubServer.named i pb.bytes) with hn | ⟨f, hf⟩
      · rw [hn]
        exact .inr (.inr (.inl ⟨hlen, hfor, rfl, rfl⟩))
      · have hmem : f ∈ i.functions := List.mem_of_find?_eq_some hf
        have hserved : Served T i impl pb.bytes →
            ∃ r, StubServer.readParams T f.params (pb.bytes.drop 20) = some r ∧
              f.leaves T (impl f.name r.1) = false := by
          rintro ⟨g, r, hg, hr⟩
          rw [hf] at hg
          cases hg
          exact ⟨r, hr⟩
        rw [hf]
        dsimp only
        rcases Option.eq_none_or_eq_some
          (StubServer.readParams T f.params (pb.bytes.drop 20)) with hr | ⟨⟨os, bs⟩, hr⟩
        · rw [StubServer.runCase_none hr]
          refine .inr (.inr (.inr (.inl ⟨hlen, hfor, fun h => ?_, rfl⟩)))
          obtain ⟨r, hr', -⟩ := hserved h
          rw [hr] at hr'
          cases hr'
        · obtain ⟨reply, hrun⟩ := @StubServer.runCase_some Val T f impl
            (StubServer.header pb.bytes) (pb.bytes.drop 20) bs os (hplain f hmem)
            (isSome_implArgs hc hmem) rfl rfl hr
          rw [hrun]
          cases hleaves : f.leaves T (impl f.name os) with
          | true =>
            refine .inr (.inr (.inr (.inl ⟨hlen, hfor, fun h => ?_, rfl⟩)))
            obtain ⟨r, hr', hnot⟩ := hserved h
            rw [hr] at hr'
            cases hr'
            rw [hleaves] at hnot
            cases hnot
          | false =>
            refine .inr (.inr (.inr (.inr ⟨hlen, ⟨f, _, hf, hr, hleaves⟩, rfl, fun he => ?_⟩)))
            have := congrArg List.length he
            rw [List.length_append, List.length_singleton] at this
            omega
    · rw [if_neg hfor]
      exact .inr (.inl ⟨hlen, hfor, rfl⟩)
  · rw [if_neg hlen]
    exact .inl ⟨by omega, rfl⟩

/-- All of a buffer is sent when `::send` takes whole pages. -/
theorem taken_whole (pb : Pbuf) : SrvTransTcp.taken (fun _ => 2048) pb.pages = pb.bytes := by
  have hle : ∀ p ∈ pb.pages, p.length ≤ 2048 := by
    intro p hp
    obtain ⟨l₁, l₂, he⟩ := List.append_of_mem hp
    have h := pb.paged.drop l₁.length
    rw [he, List.drop_left] at h
    exact h.le_cap
  have hsends : ∀ ps : List Page8, (∀ p ∈ ps, p.length ≤ 2048) →
      SrvTransTcp.Sends (fun _ => 2048) ps := by
    intro ps
    induction ps with
    | nil => exact fun _ => trivial
    | cons p ps ih =>
      intro hps
      have hp : p.length ≤ 2048 := hps p (List.mem_cons_self ..)
      exact ⟨Int.ofNat_le.mpr hp, ih fun q hq => hps q (List.mem_cons_of_mem p hq)⟩
  exact (SrvTransTcp.taken_eq_iff pb.pages_ne_nil).mpr (hsends _ hle)

/-- **Requests that are answered.** -/
theorem requests_answered_iff (T : Types Val) (i : Iface) (hc : i.compiles)
    (hplain : ∀ f ∈ i.functions, f.Plain) (impl : Impl Val) (b : Bfd) (h : Bfd.Tidy b.buf)
    (hfd : 0 < b.fd) :
    Answered T i impl b ↔ Answerable T i impl b.buf.unread := by
  by_cases hnil : b.buf.unread = []
  · refine ⟨fun _ => .inl hnil, fun _ calls errs => ?_⟩
    exact ⟨_, SrvTransTcp.onDataArrival_nil h hnil, rfl, fun hne => absurd rfl hne,
      fun _ => .inl rfl⟩
  · have hcommon : ¬ SrvTransTcp.Caught (some Thrown.common) := by decide
    have hrpc : SrvTransTcp.Caught (some Thrown.rpc) := by decide
    have hnone : SrvTransTcp.Caught none := by decide
    constructor
    · intro hall
      obtain ⟨a, ha, hth, hdec, hsent⟩ := hall [] fun _ => 2048
      obtain ⟨b₁, -, -, -, heq⟩ := SrvTransTcp.onDataArrival_eq (StubServer.run T i impl) []
        (fun _ => 2048) h hfd hnil
      rw [heq] at ha
      dsimp only at ha
      have hcases := run_cases T impl hc hplain [] (toPbuf b.buf.unread)
      rw [bytes_toPbuf] at hcases
      rcases hcases with ⟨-, ht⟩ | ⟨hlen, hfor, -⟩ | ⟨-, -, -, hr⟩ | ⟨-, -, -, ht⟩ |
        ⟨hlen, hcomp, -⟩
      · rw [ht, if_neg hcommon] at ha
        cases ha
        cases hth
      · exact .inr ⟨hlen, fun hf => absurd hf hfor⟩
      · -- the request goes back
        rw [hr, if_pos hrpc, taken_whole, bytes_toPbuf] at ha
        cases ha
        rcases hsent rfl with hs | ⟨-, hs⟩
        · exact absurd hs hnil
        · exact absurd rfl hs
      · rw [ht, if_neg hcommon] at ha
        cases ha
        cases hth
      · exact .inr ⟨hlen, fun _ => hcomp⟩
    · intro hans calls errs
      obtain ⟨hlen, hcomp⟩ := hans.resolve_left hnil
      obtain ⟨b₁, -, -, -, heq⟩ := SrvTransTcp.onDataArrival_eq (StubServer.run T i impl) calls
        errs h hfd hnil
      refine ⟨_, heq, ?_⟩
      have hcases := run_cases T impl hc hplain calls (toPbuf b.buf.unread)
      rw [bytes_toPbuf] at hcases
      rcases hcases with ⟨hlt, -⟩ | ⟨-, -, hr⟩ | ⟨-, hfor, hn, -⟩ | ⟨-, hfor, hnc, -⟩ |
        ⟨-, hcmp, ht, hne⟩
      · omega
      · dsimp only
        rw [hr, if_pos hrpc]
        exact ⟨rfl, fun hne => absurd rfl hne, fun _ => .inl rfl⟩
      · obtain ⟨f, r, hf, -⟩ := hcomp hfor
        rw [hn] at hf
        cases hf
      · exact absurd (hcomp hfor) hnc
      · dsimp only
        rw [ht, if_pos hnone]
        exact ⟨rfl, fun _ => hcmp.complete, fun he => absurd he hne⟩

end Requests

/-! ## Some requests -/

/-- A descriptor on which these bytes have come. -/
def holding (c : UInt8) (cs : List UInt8) : Bfd :=
  ((sampleBfd.internalRead [turn (.data c cs), turn .unready]).map Prod.fst).getD sampleBfd

theorem tidy_holding (c : UInt8) (cs : List UInt8) : Bfd.Tidy (holding c cs).buf := by
  have ht := @Bfd.tidy_init 5 sampleArea (List.length_replicate ..)
  have hun := @Bfd.unread_init 5 sampleArea (List.length_replicate ..)
  unfold holding
  cases hread : sampleBfd.internalRead [turn (.data c cs), turn .unready] with
  | none => exact ht
  | some r => exact (Bfd.internalRead_spec (ht.whole hun) hread).1.tidy

def greeter : Iface := Iface.addInternalFunctions ⟨"greeter", [hello], 0⟩

theorem plain_ping : ping.Plain where
  params := by decide
  free := by decide

theorem plain_greeter : ∀ f ∈ greeter.functions, f.Plain := by
  intro f hf
  rcases List.mem_cons.mp hf with rfl | hf
  · exact clear_hello.toPlain
  · exact List.mem_singleton.mp hf ▸ plain_ping

/-- Types whose objects are single bytes, where a byte 0 is not written: `xdrbuf` throws an `exc` of
    0 over it. -/
def strictTypes : Types fun _ => UInt8 where
  enc _ v := if v = 0 then [] else [v]
  whole _ v := v ≠ 0
  dec _ bs :=
    match bs with
    | [] => none
    | b :: bs => some (b, bs)
  dec_enc t v bs h := by
    rw [if_neg (of_decide_eq_true h)]
    rfl
  init _ := 0
  ofNat _ n := UInt8.ofNat n
  catches t t' := t = t'
  catches_self t := by simp
  refusal _ _ := ⟨"exc", 0⟩

/-- It has all results `v`. -/
def greeterImpl (v : UInt8) : Impl fun _ => UInt8 := fun _ _ => .returns fun _ _ => v

/-- A request to `greeter`, for a function and with some bytes behind the header. -/
def toGreeter (functionId : Nat) (bs : List UInt8) : Bfd :=
  holding 0 (be 7 0 ++ (be 4 functionId ++ (be 8 1 ++ bs)))

theorem requests_answered_iff_hello :
    Answered strictTypes greeter (greeterImpl 7) (toGreeter 1000 [5, 5]) := by
  have hun : (toGreeter 1000 [5, 5]).buf.unread = be 8 0 ++ (be 4 1000 ++ (be 8 1 ++ [5, 5])) := by
    decide +kernel
  refine (requests_answered_iff strictTypes greeter (by decide) plain_greeter (greeterImpl 7)
    (toGreeter 1000 [5, 5]) (tidy_holding ..) (by decide +kernel)).mpr (.inr ?_)
  rw [hun]
  exact ⟨by decide, fun _ => ⟨hello, _, rfl, rfl, by decide⟩⟩

/-- For a request of one byte, for one with a parameter missing, and for one that is answered with
    a result that is not written, `on_data_arrival` throws; and a request for a function that is not
    there goes back as it came. -/
theorem requests_answered_fails :
    ¬ Answered strictTypes greeter (greeterImpl 7) (holding 0 []) ∧
    ¬ Answered strictTypes greeter (greeterImpl 7) (toGreeter 1000 [5]) ∧
    ¬ Answered strictTypes greeter (greeterImpl 0) (toGreeter 1000 [5, 5]) ∧
    ¬ Answered strictTypes greeter (greeterImpl 7) (toGreeter 77 [5, 5]) := by
  have hrun : ∀ b v, (SrvTransTcp.onDataArrival (StubServer.run strictTypes greeter (greeterImpl v))
      [] b fun _ => 2048).map SrvTransTcp.Arrival.thrown = some (some .common) →
      ¬ Answered strictTypes greeter (greeterImpl v) b := by
    intro b v hb hall
    obtain ⟨a, ha, hth, -⟩ := hall [] fun _ => 2048
    rw [ha, Option.map_some, hth] at hb
    cases hb
  refine ⟨hrun _ _ (by decide +kernel), hrun _ _ (by decide +kernel), hrun _ _ (by decide +kernel),
    fun hall => ?_⟩
  obtain ⟨a, ha, -, -, hsent⟩ := hall [] fun _ => 2048
  have hback : (SrvTransTcp.onDataArrival (StubServer.run strictTypes greeter (greeterImpl 7)) []
      (toGreeter 77 [5, 5]) fun _ => 2048).map (fun a => (a.app.isEmpty, a.sent)) =
      some (true, (toGreeter 77 [5, 5]).buf.unread) := by decide +kernel
  rw [ha] at hback
  obtain ⟨happ, hecho⟩ := Prod.mk.inj (Option.some.inj hback)
  rcases hsent (List.isEmpty_iff.mp happ) with hs | ⟨-, hs⟩
  · rw [hs] at hecho
    exact absurd hecho (by decide +kernel)
  · exact hs hecho

end Rpc

end CodeSLoop
