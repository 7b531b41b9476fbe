import CodeSLoop.Rpc.Stubs
import Mathlib.Data.List.Nodup

/-!
# The loops of the stub generators agree

What the loops over the parameters emit on one side does to the archive the opposite of what
they emit on the other: `receive_sent` for the request that `send_eq` sends, `fetch_results` for
the results that `invoke_returns` replies with, `raise_handlers` for the exceptions and their
numbers. Argument lists parse where exceptions stand last (`parse_client`, `parse_server`), and
the numbers of functions tell them apart (`find_fid`).

All that is for objects that `xdrbuf` writes whole. `invoke_leaves` is for any: it says in which
calls something that is thrown leaves the handlers.
-/

namespace CodeSLoop

open Bytes Archive

namespace Rpc

variable {Val : String → Type} {T : Types Val}

/-! ## Argument lists -/

variable {ps ns es : List Param}

theorem comma_exceptions (h : ∀ p ∈ es, p.kind = .exception) : comma es = [] := by
  cases es with
  | nil => rfl
  | cons p es => exact if_neg (not_not.mpr (h p (List.mem_cons_self ..)))

theorem parseArgs_cons (x : String) (ts : List Tok) :
    parseArgs (.name x :: .comma :: ts) = (parseArgs ts).map (x :: ·) := by
  rw [parseArgs]

/-- The client's argument list, exceptions standing last. -/
theorem parse_client (hn : ∀ p ∈ ns, p.kind ≠ .exception) (he : ∀ p ∈ es, p.kind = .exception) :
    parseArgs (StubClient.callArgs (ns ++ es)) =
      if ns = [] then none else some (ns.map Param.name) := by
  have hes : StubClient.callArgs es = [] := by
    clear hn
    induction es with
    | nil => rfl
    | cons p es ih =>
      rw [StubClient.callArgs, if_pos (he p (List.mem_cons_self ..))]
      exact ih fun q hq => he q (List.mem_cons_of_mem p hq)
  induction ns with
  | nil =>
    rw [List.nil_append, hes]
    rfl
  | cons p ns ih =>
    have ih := ih fun q hq => hn q (List.mem_cons_of_mem p hq)
    rw [List.cons_append, StubClient.callArgs, if_neg (hn p (List.mem_cons_self ..))]
    cases ns with
    | nil =>
      rw [List.nil_append, comma_exceptions he, hes]
      rfl
    | cons q ns =>
      have hq : q.kind ≠ .exception := hn q (List.mem_cons_of_mem p (List.mem_cons_self ..))
      have hcomma : comma (q :: ns ++ es) = [.comma] := if_pos hq
      rw [hcomma, List.cons_append, List.cons_append, List.nil_append, parseArgs_cons, ih]
      rfl

/-- The server's. -/
theorem parse_server (hn : ∀ p ∈ ns, p.kind ≠ .exception) (he : ∀ p ∈ es, p.kind = .exception) :
    parseArgs (StubServer.callArgs (ns ++ es)) =
      if ns = [] then none else some (ns.map Param.name) := by
  have hes : StubServer.callArgs es = [] := by
    clear hn
    induction es with
    | nil => rfl
    | cons p es ih =>
      have he' : ∀ q ∈ es, q.kind = .exception := fun q hq => he q (List.mem_cons_of_mem p hq)
      rw [StubServer.callArgs, if_neg (not_not.mpr (he p (List.mem_cons_self ..))),
        comma_exceptions he', ih he']
      rfl
  induction ns with
  | nil =>
    rw [List.nil_append, hes]
    rfl
  | cons p ns ih =>
    have ih := ih fun q hq => hn q (List.mem_cons_of_mem p hq)
    rw [List.cons_append, StubServer.callArgs, if_pos (hn p (List.mem_cons_self ..))]
    cases ns with
    | nil =>
      rw [List.nil_append, comma_exceptions he, hes]
      rfl
    | cons q ns =>
      have hq : q.kind ≠ .exception := hn q (List.mem_cons_of_mem p (List.mem_cons_self ..))
      have hcomma : comma (q :: ns ++ es) = [.comma] := if_pos hq
      rw [hcomma]
      rw [show [Tok.name p.name] ++ [Tok.comma] ++ StubServer.callArgs (q :: ns ++ es) =
        .name p.name :: .comma :: StubServer.callArgs (q :: ns ++ es) from rfl, parseArgs_cons, ih]
      rfl

/-- The names in a list of arguments. -/
def argsIn : List Tok → List String
  | [] => []
  | .name x :: ts => x :: argsIn ts
  | .comma :: ts => argsIn ts

theorem argsIn_append (ts us : List Tok) : argsIn (ts ++ us) = argsIn ts ++ argsIn us := by
  induction ts with
  | nil => rfl
  | cons t ts ih => cases t <;> simp [argsIn, ih]

theorem argsIn_comma (ps : List Param) : argsIn (comma ps) = [] := by
  cases ps with
  | nil => rfl
  | cons p ps =>
    rw [comma]
    split_ifs <;> rfl

/-- A list that parses has the arguments whose names are in it. -/
theorem parse_argsIn {ts : List Tok} {xs : List String} (h : parseArgs ts = some xs) :
    xs = argsIn ts := by
  induction ts using parseArgs.induct generalizing xs with
  | case1 x =>
    cases h
    rfl
  | case2 x ts ih =>
    rw [parseArgs_cons, Option.map_eq_some_iff] at h
    obtain ⟨ys, hys, rfl⟩ := h
    rw [argsIn, argsIn, ← ih hys]
  | case3 ts hone hmore =>
    rw [parseArgs] at h
    · cases h
    · exact hone
    · exact hmore

theorem argsIn_server (ps : List Param) :
    argsIn (StubServer.callArgs ps) = (ps.filter fun p => p.kind ≠ .exception).map Param.name := by
  induction ps with
  | nil => rfl
  | cons p ps ih =>
    rw [StubServer.callArgs, argsIn_append, argsIn_append, argsIn_comma, ih, List.append_nil]
    by_cases hp : p.kind = .exception
    · rw [List.filter_cons_of_neg (by simp [hp]), if_neg (not_not.mpr hp)]
      rfl
    · rw [List.filter_cons_of_pos (by simp [hp]), if_pos hp]
      rfl

theorem Func.sig_kind {f : Func} : ∀ p ∈ f.sig, p.kind ≠ .exception := fun _ hp =>
  of_decide_eq_true (List.mem_filter.mp hp).2

theorem Func.exceptions_kind {f : Func} : ∀ p ∈ f.exceptions, p.kind = .exception := fun _ hp =>
  of_decide_eq_true (List.mem_filter.mp hp).2

/-! ## The numbers of functions -/

variable {fs : List Func} {f : Func} {n : Nat} {a b : String}

theorem le_fidFrom : n ≤ fidFrom n fs a := by
  induction fs generalizing n with
  | nil => exact Nat.le_refl n
  | cons f fs ih =>
    rw [fidFrom]
    split_ifs
    · exact ih
    · exact Nat.le_refl n
    · exact Nat.le_of_succ_le ih

theorem fidFrom_le : fidFrom n fs a ≤ n + fs.length := by
  induction fs generalizing n with
  | nil => exact Nat.le_refl n
  | cons f fs ih =>
    have hn := @ih n
    have hs := @ih (n + 1)
    rw [fidFrom, List.length_cons]
    split_ifs <;> omega

/-- Different functions have different numbers. -/
theorem fidFrom_inj (ha : a ∈ fs.map Func.name) (hb : b ∈ fs.map Func.name) (hpa : a ≠ "ping")
    (hpb : b ≠ "ping") (h : fidFrom n fs a = fidFrom n fs b) : a = b := by
  induction fs generalizing n with
  | nil => cases ha
  | cons f fs ih =>
    rw [List.map_cons] at ha hb
    rw [fidFrom, fidFrom] at h
    by_cases hf : f.name = "ping"
    · rw [if_pos hf, if_pos hf] at h
      exact ih ((List.mem_cons.mp ha).resolve_left fun he => hpa (he.trans hf))
        ((List.mem_cons.mp hb).resolve_left fun he => hpb (he.trans hf)) h
    · rw [if_neg hf, if_neg hf] at h
      by_cases hfa : f.name = a
      · by_cases hfb : f.name = b
        · exact hfa.symm.trans hfb
        · have hle := @le_fidFrom fs (n + 1) b
          rw [if_pos hfa, if_neg hfb] at h
          omega
      · by_cases hfb : f.name = b
        · have hle := @le_fidFrom fs (n + 1) a
          rw [if_neg hfa, if_pos hfb] at h
          omega
        · rw [if_neg hfa, if_neg hfb] at h
          exact ih ((List.mem_cons.mp ha).resolve_left (Ne.symm hfa))
            ((List.mem_cons.mp hb).resolve_left (Ne.symm hfb)) h

theorem fid_inj (ha : a ∈ fs.map Func.name) (hb : b ∈ fs.map Func.name)
    (h : fid fs a = fid fs b) : a = b := by
  unfold fid at h
  have hla := @le_fidFrom fs 1000 a
  have hlb := @le_fidFrom fs 1000 b
  by_cases hpa : a = "ping"
  · by_cases hpb : b = "ping"
    · exact hpa.trans hpb.symm
    · rw [if_pos hpa, if_neg hpb] at h
      omega
  · by_cases hpb : b = "ping"
    · rw [if_neg hpa, if_pos hpb] at h
      omega
    · rw [if_neg hpa, if_neg hpb] at h
      exact fidFrom_inj ha hb hpa hpb h

/-- The switches find the function by its number. -/
theorem find_fid (hnd : (fs.map Func.name).Nodup) (hf : f ∈ fs) :
    fs.find? (fun g => fid fs g.name = fid fs f.name) = some f := by
  cases hfind : fs.find? fun g => fid fs g.name = fid fs f.name with
  | none =>
    have hnone := List.find?_eq_none.mp hfind f hf
    exact absurd (decide_eq_true rfl) hnone
  | some g =>
    have hg := List.mem_of_find?_eq_some hfind
    have heq : fid fs g.name = fid fs f.name := by simpa using List.find?_some hfind
    have hname := fid_inj (List.mem_map_of_mem hg) (List.mem_map_of_mem hf) heq
    rw [List.inj_on_of_nodup_map hnd hg hf hname]

/-! ## Requests -/

/-- Every object is written whole. -/
def Types.Invertible (T : Types Val) : Prop := ∀ t v, T.whole t v = true

/-- What the request carries for a parameter. -/
def sent (T : Types Val) (vals : (p : Param) → Val p.type) (p : Param) : List UInt8 :=
  if p.kind = .output then [] else T.enc p.type (vals p)

section Client

variable {clock : Nat} {ptrs : String → Option Nat} {env : Env Val} {buf : List UInt8}
  {opp : List Nat} {x : String} {sts : List StubClient.CliStmt}

theorem exec_serialize {cell : Cell Val} (h : env x = some cell)
    (hwhole : cell.whole T.toCoding = true) :
    StubClient.exec T clock ptrs (⟨env, true, buf⟩, opp) (.serialize x :: sts) =
      StubClient.exec T clock ptrs (⟨env, true, buf ++ cell.enc T.toCoding⟩, opp) sts := by
  rw [StubClient.exec, StubClient.step, step_puts rfl h, if_pos hwhole]
  rfl

theorem exec_pushBack {a : Nat} {s : State String Val} (h : ptrs x = some a) :
    StubClient.exec T clock ptrs (s, opp) (.pushBack x :: sts) =
      StubClient.exec T clock ptrs (s, opp ++ [a]) sts := by
  rw [StubClient.exec, StubClient.step, h]
  rfl

/-- The client's loop sends the values, and keeps the pointers that results are to go to. -/
theorem send_eq (hT : T.Invertible) {addrs : Param → Nat} {vals : (p : Param) → Val p.type}
    (hps : ∀ p ∈ ps, p.kind ≠ .exception →
      ptrs p.name = some (addrs p) ∧ env p.name = some (.obj ⟨p.type, vals p⟩)) :
    StubClient.exec T clock ptrs (⟨env, true, buf⟩, opp) (StubClient.send ps) =
      some (⟨env, true, buf ++ (ps.filter fun p => p.kind ≠ .exception).flatMap (sent T vals)⟩,
        opp ++ ((ps.filter fun p => p.kind ≠ .exception).filter fun p => p.kind ≠ .input).map
          addrs) := by
  induction ps generalizing buf opp with
  | nil => simp [StubClient.send, StubClient.exec]
  | cons p ps ih =>
    have htail := fun q hq hk => hps q (List.mem_cons_of_mem p hq) hk
    by_cases hexc : p.kind = .exception
    · rw [StubClient.send, if_pos hexc, ih htail]
      simp [hexc]
    · obtain ⟨hptr, henv⟩ := hps p (List.mem_cons_self ..) hexc
      rw [StubClient.send, if_neg hexc]
      cases hk : p.kind with
      | exception => exact absurd hk hexc
      | input =>
        refine (exec_serialize henv (hT _ _)).trans ((ih htail).trans ?_)
        simp [hk, sent, Cell.enc]
      | output =>
        refine (exec_pushBack hptr).trans ((ih htail).trans ?_)
        simp [hk, sent]
      | inout =>
        refine (exec_pushBack hptr).trans
          ((exec_serialize henv (hT _ _)).trans ((ih htail).trans ?_))
        simp [hk, sent, Cell.enc]

end Client

/-- The variables of a case, once they are received. -/
def received (T : Types Val) (vals : (p : Param) → Val p.type) (p : Param) :
    String × Cell Val :=
  (p.name, .obj ⟨p.type, if p.kind = .output then T.init p.type else vals p⟩)

/-- The server's loop receives what was sent. -/
theorem receive_sent (hT : T.Invertible) {vals : (p : Param) → Val p.type} {env : Env Val}
    {bs : List UInt8} :
    exec T.toCoding ⟨env, false,
        (ps.filter fun p => p.kind ≠ .exception).flatMap (sent T vals) ++ bs⟩
        (StubServer.receive ps) =
      some ⟨scope env ((ps.filter fun p => p.kind ≠ .exception).map (received T vals)), false,
        bs⟩ := by
  induction ps generalizing env with
  | nil => rfl
  | cons p ps ih =>
    by_cases hexc : p.kind = .exception
    · have hfilter : (p :: ps).filter (fun p => p.kind ≠ .exception) =
          ps.filter fun p => p.kind ≠ .exception := List.filter_cons_of_neg (by simp [hexc])
      rw [hfilter, StubServer.receive, if_neg (not_not.mpr hexc)]
      exact ih
    · have hfilter : (p :: ps).filter (fun p => p.kind ≠ .exception) =
          p :: ps.filter fun p => p.kind ≠ .exception :=
        List.filter_cons_of_pos (by simp [hexc])
      rw [hfilter, List.flatMap_cons, List.append_assoc, List.map_cons, StubServer.receive,
        if_pos hexc, sent, received, scope]
      by_cases hout : p.kind = .output
      · rw [if_pos hout, if_neg (not_not.mpr hout), if_pos hout]
        exact ih
      · rw [if_neg hout, if_pos hout, if_neg hout]
        have hread := exec_declare (c := T.toCoding) (t := p.type) (x := p.name) (s := ⟨env, false,
          T.enc p.type (vals p) ++
            ((ps.filter fun p => p.kind ≠ .exception).flatMap (sent T vals) ++ bs)⟩) rfl
        rw [T.dec_enc _ _ _ (hT _ _)] at hread
        exact (exec_append hread).trans ih

/-! ## Results -/

variable {out : (t : String) → Nat → Val t} {l : List Param} {i : Nat}

/-- The parameters by which results come back, each with its place in the signature. -/
def Func.refs (f : Func) : List (Param × Nat) := f.sig.zipIdx.filter fun q => q.1.kind ≠ .input

/-- The variables by which results come back, after the call. -/
def result (out : (t : String) → Nat → Val t) (q : Param × Nat) : String × Cell Val :=
  (q.1.name, .obj ⟨q.1.type, out q.1.type q.2⟩)

theorem passBack_eq {env : Env Val} : passBack out i env l (l.map Param.name) =
    scope env (((l.zipIdx i).filter fun q => q.1.kind ≠ .input).map (result out)) := by
  induction l generalizing i env with
  | nil => rfl
  | cons p l ih =>
    rw [List.map_cons, passBack, ih, List.zipIdx_cons]
    by_cases hk : p.kind = .input
    · rw [if_pos hk, List.filter_cons_of_neg (by simp [hk])]
    · rw [if_neg hk, List.filter_cons_of_pos (by simp [hk]), List.map_cons]
      rfl

theorem Func.map_fst_refs (f : Func) :
    f.refs.map Prod.fst = f.sig.filter fun p => p.kind ≠ .input := by
  have hfst := List.zipIdx_map_fst 0 f.sig
  conv_rhs => rw [← hfst]
  rw [List.filter_map]
  rfl

/-- The loop behind the call goes over the references. -/
theorem Func.server_results (f : Func) :
    StubServer.results f.params = f.refs.map fun q => .serialize q.1.name := by
  have hloop : ∀ ps, StubServer.results ps = ((ps.filter fun p => p.kind ≠ .exception).filter
      fun p => p.kind ≠ .input).map fun p => .serialize p.name := by
    intro ps
    induction ps with
    | nil => rfl
    | cons p ps ih =>
      rw [StubServer.results, ih]
      cases hk : p.kind <;> simp [hk]
  have hmap := congrArg (List.map fun p => (.serialize p.name : Stmt)) f.map_fst_refs
  rw [List.map_map] at hmap
  exact (hloop f.params).trans hmap.symm

/-- So does the client's. -/
theorem Func.client_results (f : Func) :
    StubClient.results f.params = f.refs.map fun q => q.1.type := by
  have hloop : ∀ ps, StubClient.results ps = ((ps.filter fun p => p.kind ≠ .exception).filter
      fun p => p.kind ≠ .input).map Param.type := by
    intro ps
    induction ps with
    | nil => rfl
    | cons p ps ih =>
      rw [StubClient.results, ih]
      cases hk : p.kind <;> simp [hk]
  have hmap := congrArg (List.map Param.type) f.map_fst_refs
  rw [List.map_map] at hmap
  exact (hloop f.params).trans hmap.symm

/-- What a reply carries behind `rt_succcess`. -/
def Func.resultBytes (T : Types Val) (f : Func) (out : (t : String) → Nat → Val t) : List UInt8 :=
  f.refs.flatMap fun q => T.enc q.1.type (out q.1.type q.2)

/-- What the server writes when the implementation returns. -/
def Func.replies (f : Func) (out : (t : String) → Nat → Val t) : List (String × Cell Val) :=
  ("retval", .num 4 0) :: f.refs.map (result out)

theorem Func.result_stmts (f : Func) (out : (t : String) → Nat → Val t) :
    (.serialize "retval" :: StubServer.results f.params : List Stmt) =
      (f.replies out).map fun q => .serialize q.1 := by
  rw [f.server_results, Func.replies, List.map_cons, List.map_map]
  rfl

theorem Func.refs_sublist (f : Func) (out : (t : String) → Nat → Val t) :
    List.Sublist ((f.refs.map (result out)).map Prod.fst) (f.sig.map Param.name) := by
  have hnames : (f.refs.map (result out)).map Prod.fst =
      (f.sig.filter fun p => p.kind ≠ .input).map Param.name := by
    rw [← f.map_fst_refs, List.map_map, List.map_map]
    rfl
  rw [hnames]
  exact List.filter_sublist.map Param.name

/-- Behind the call the variables have these values. -/
theorem Func.replies_scope {env : Env Val} (hnd : (f.sig.map Param.name).Nodup)
    (hfree : "retval" ∉ f.sig.map Param.name) (hret : env "retval" = some (.num 4 0)) :
    ∀ q ∈ f.replies out, scope env (f.refs.map (result out)) q.1 = some q.2 := by
  have hsub := f.refs_sublist out
  intro q hq
  rcases List.mem_cons.mp hq with rfl | hq
  · exact (scope_of_not_mem fun hmem => hfree (hsub.subset hmem)).trans hret
  · exact scope_of_mem (hnd.sublist hsub) hq

/-- When the implementation returns, these are written, in this scope. -/
theorem invoke_replies {env : Env Val} :
    StubServer.invoke T f ⟨env, true, []⟩ (f.sig.map Param.name) (.returns out) =
      match exec T.toCoding ⟨scope env (f.refs.map (result out)), true, []⟩
        ((f.replies out).map fun q => .serialize q.1) with
      | some s => some (s.buf, false)
      | none =>
        (raised T.toCoding ⟨scope env (f.refs.map (result out)), true, []⟩
          ((f.replies out).map fun q => .serialize q.1)).bind fun r =>
            StubServer.handle T f r.2 (T.refusal r.1.1 r.1.2) := by
  rw [StubServer.invoke, passBack_eq, f.result_stmts out]
  rfl

/-- The server's reply to a call that returned. -/
theorem invoke_returns {env : Env Val} (hnd : (f.sig.map Param.name).Nodup)
    (hfree : "retval" ∉ f.sig.map Param.name) (hret : env "retval" = some (.num 4 0))
    (hwhole : ∀ q ∈ f.refs, T.whole q.1.type (out q.1.type q.2) = true) :
    StubServer.invoke T f ⟨env, true, []⟩ (f.sig.map Param.name) (.returns out) =
      some (be 4 0 ++ f.resultBytes T out, false) := by
  have hscope := @Func.replies_scope Val f out env hnd hfree hret
  have hputs := exec_puts (c := T.toCoding)
    (s := ⟨scope env (f.refs.map (result out)), true, []⟩) (l := f.replies out) rfl fun q hq => by
      refine ⟨hscope q hq, ?_⟩
      rcases List.mem_cons.mp hq with rfl | hq
      · rfl
      · obtain ⟨r, hr, rfl⟩ := List.mem_map.mp hq
        exact hwhole r hr
  rw [invoke_replies, hputs, Func.replies, List.flatMap_cons, List.flatMap_map]
  rfl

/-- The client puts the results where they belong, one behind the other. -/
theorem fetch_results (hT : T.Invertible) {addrs : Param → Nat} {refs : List (Param × Nat)} {ivec : List Nat}
    {ptr : Nat} {bs : List UInt8}
    (hivec : ivec.drop ptr = refs.map fun q => addrs q.1) :
    StubClient.fetch T ivec ptr (refs.flatMap (fun q => T.enc q.1.type (out q.1.type q.2)) ++ bs)
        (refs.map fun q => q.1.type) =
      (.returned, refs.map fun q => (addrs q.1, ⟨q.1.type, out q.1.type q.2⟩)) := by
  induction refs generalizing ptr with
  | nil => rfl
  | cons q refs ih =>
    have hget : ivec[ptr]? = some (addrs q.1) := by
      rw [← List.head?_drop, hivec]
      rfl
    have hnext : ivec.drop (ptr + 1) = refs.map fun q => addrs q.1 := by
      rw [← List.tail_drop, hivec]
      rfl
    rw [List.map_cons, List.flatMap_cons, List.append_assoc, StubClient.fetch, hget,
      T.dec_enc _ _ _ (hT _ _)]
    dsimp only
    rw [ih hnext]
    rfl

/-! ## Exceptions -/

/-- The exception of the description by which something thrown is caught first. -/
def Func.caughtAs (T : Types Val) (f : Func) (t : String) : Option Param :=
  f.exceptions.find? fun p => T.catches p.type t

/-- What is caught as no exception of the description has no handler. -/
theorem handlers_none {t : String} {k : Nat}
    (h : (ps.filter fun p => p.kind = .exception).find? (fun p => T.catches p.type t) = none) :
    (StubServer.handlers k ps).find? (fun h => T.catches h.type t) = none := by
  induction ps generalizing k with
  | nil => rfl
  | cons p ps ih =>
    rw [StubServer.handlers]
    by_cases hk : p.kind = .exception
    · rw [List.filter_cons_of_pos (by simp [hk]), List.find?_cons] at h
      rw [if_pos hk, List.find?_cons]
      cases hc : T.catches p.type t with
      | true =>
        rw [hc] at h
        cases h
      | false =>
        rw [hc] at h
        rw [show T.catches (StubServer.handler k p).type t = false from hc]
        exact ih h
    · rw [List.filter_cons_of_neg (by simp [hk])] at h
      rw [if_neg hk]
      exact ih h

/-- The handlers on one side and the `if`s on the other number the exceptions alike. -/
theorem raise_handlers {t : String} {k : Nat} {e : Param}
    (h : (ps.filter fun p => p.kind = .exception).find? (fun p => T.catches p.type t) = some e) :
    ∃ n, k ≤ n ∧ n < k + ps.length ∧
      (StubServer.handlers k ps).find? (fun h => T.catches h.type t) =
        some (StubServer.handler n e) ∧
      ∀ bs, StubClient.raise T n bs (StubClient.exceptions k ps) =
        StubClient.throwFrom T bs e.type := by
  induction ps generalizing k with
  | nil => cases h
  | cons p ps ih =>
    rw [StubServer.handlers, StubClient.exceptions, List.length_cons]
    by_cases hk : p.kind = .exception
    · rw [List.filter_cons_of_pos (by simp [hk]), List.find?_cons] at h
      rw [if_pos hk, if_pos hk, List.find?_cons]
      cases hc : T.catches p.type t with
      | true =>
        rw [hc] at h
        cases h
        rw [show T.catches (StubServer.handler k e).type t = true from hc]
        exact ⟨k, Nat.le_refl k, by omega, rfl, fun bs => if_pos rfl⟩
      | false =>
        rw [hc] at h
        obtain ⟨n, hle, hlt, hfind, hraise⟩ := ih (k := k + 1) h
        rw [show T.catches (StubServer.handler k p).type t = false from hc]
        refine ⟨n, by omega, by omega, hfind, fun bs => ?_⟩
        rw [StubClient.raise, if_neg (by omega)]
        exact hraise bs
    · rw [List.filter_cons_of_neg (by simp [hk])] at h
      obtain ⟨n, hle, hlt, hfind, hraise⟩ := ih (k := k) h
      rw [if_neg hk, if_neg hk]
      exact ⟨n, hle, by omega, hfind, hraise⟩

/-- A handler writes the status, the number and what the exception holds; only the last may fail
    it. -/
theorem ending_handler {env : Env Val} {buf : List UInt8} {e : Obj Val} {p : Param} {n a b : Nat}
    (hret : env "retval" = some (.num 4 a)) (hexc : env "exc_nr" = some (.num 4 b))
    (hp : p.name ≠ "retval" ∧ p.name ≠ "exc_nr") :
    ∃ bs, ending T.toCoding ⟨Function.update env p.name (some (.obj e)), true, buf⟩
        (StubServer.handler n p).body = some (bs, !T.whole e.1 e.2) ∧
      (T.whole e.1 e.2 = true → bs = buf ++ (be 4 1 ++ (be 4 n ++ T.enc e.1 e.2))) := by
  -- the three states of the variables
  obtain ⟨env₁, he₁⟩ : ∃ env₁, env₁ = Function.update env p.name (some (.obj e)) := ⟨_, rfl⟩
  obtain ⟨env₂, he₂⟩ : ∃ env₂, env₂ = Function.update env₁ "retval" (some (.num 4 1)) := ⟨_, rfl⟩
  obtain ⟨env₃, he₃⟩ : ∃ env₃, env₃ = Function.update env₂ "exc_nr" (some (.num 4 n)) := ⟨_, rfl⟩
  have hret₁ : env₁ "retval" = some (.num 4 a) := by
    rw [he₁, Function.update_of_ne (Ne.symm hp.1), hret]
  have hexc₂ : env₂ "exc_nr" = some (.num 4 b) := by
    rw [he₂, Function.update_of_ne (by decide), he₁, Function.update_of_ne (Ne.symm hp.2), hexc]
  have hassign : exec T.toCoding ⟨env₁, true, buf⟩ [.assign "retval" 1, .assign "exc_nr" n] =
      some ⟨env₃, true, buf⟩ := by
    simp only [exec, step, hret₁, Option.map_some, ← he₂, hexc₂, ← he₃]
  obtain ⟨bs, hend, hbs⟩ := ending_puts (c := T.toCoding) (s := ⟨env₃, true, buf⟩)
    (l := [("retval", .num 4 1), ("exc_nr", .num 4 n), (p.name, .obj e)]) rfl (by
      intro q hq
      simp only [List.mem_cons, List.not_mem_nil, or_false] at hq
      rcases hq with rfl | rfl | rfl <;> dsimp only
      · rw [he₃, Function.update_of_ne (by decide), he₂, Function.update_self]
      · rw [he₃, Function.update_self]
      · rw [he₃, Function.update_of_ne hp.2, he₂, Function.update_of_ne hp.1, he₁,
          Function.update_self])
  rw [← he₁]
  refine ⟨bs, (ending_append hassign).trans (hend.trans ?_), fun hwhole => ?_⟩
  · simp [Cell.whole]
  · have hall := hbs (by simpa [Cell.whole] using hwhole)
    simpa [Cell.enc] using hall

theorem ending_otherwise {env : Env Val} {buf : List UInt8} (hret : env "retval" = some (.num 4 0))
    (hexc : env "exc_nr" = some (.num 4 0)) :
    ending T.toCoding ⟨env, true, buf⟩ StubServer.otherwise =
      some (buf ++ (be 4 0 ++ be 4 0), false) := by
  have hputs := exec_puts (c := T.toCoding) (s := ⟨env, true, buf⟩)
    (l := [("retval", .num 4 0), ("exc_nr", .num 4 0)]) rfl (by
      intro q hq
      rcases List.mem_cons.mp hq with rfl | hq
      · exact ⟨hret, rfl⟩
      · rw [List.mem_singleton.mp hq]
        exact ⟨hexc, rfl⟩)
  rw [ending, show StubServer.otherwise = [("retval", (.num 4 0 : Cell Val)),
    ("exc_nr", .num 4 0)].map fun q => .serialize q.1 from rfl, hputs]
  rfl

/-! ## Exceptions in the handlers -/

/-- Does the handler of this exception throw? -/
def Func.unwritten (T : Types Val) (f : Func) (e : Obj Val) : Bool :=
  (f.caughtAs T e.1).isSome && !T.whole e.1 e.2

/-- Does something thrown leave the case, when the implementation ends like this? The handler of its
    exception throws; or it returns with a result that is not written whole, and the handler of what
    `xdrbuf` throws over the first such result throws. -/
def Func.leaves (T : Types Val) (f : Func) : Ending Val → Bool
  | .returns out =>
    match f.refs.find? fun q => !T.whole q.1.type (out q.1.type q.2) with
    | none => false
    | some q => f.unwritten T (T.refusal q.1.type (out q.1.type q.2))
  | .throws e => f.unwritten T e

theorem handle_leaves {env : Env Val} {buf : List UInt8} {e : Obj Val}
    (hret : env "retval" = some (.num 4 0)) (hexc : env "exc_nr" = some (.num 4 0))
    (hp : ∀ p ∈ f.params, p.name ≠ "retval" ∧ p.name ≠ "exc_nr") :
    ∃ bs, StubServer.handle T f ⟨env, true, buf⟩ e = some (bs, f.unwritten T e) := by
  rw [StubServer.handle, Func.unwritten]
  cases hc : f.caughtAs T e.1 with
  | none =>
    rw [handlers_none (k := 1) hc]
    exact ⟨_, ending_otherwise hret hexc⟩
  | some p =>
    obtain ⟨n, -, -, hfind, -⟩ := raise_handlers (k := 1) hc
    have hmem : p ∈ f.params := (List.mem_filter.mp (List.mem_of_find?_eq_some hc)).1
    obtain ⟨bs, hend, -⟩ := @ending_handler Val T env buf e p n 0 0 hret hexc (hp p hmem)
    rw [hfind, Option.isSome_some, Bool.true_and]
    exact ⟨bs, hend⟩

/-- The call, its results and its handlers come to an end, however the implementation ends. -/
theorem invoke_leaves {env : Env Val} (hnd : (f.sig.map Param.name).Nodup)
    (hp : ∀ p ∈ f.params, p.name ≠ "retval" ∧ p.name ≠ "exc_nr")
    (hret : env "retval" = some (.num 4 0)) (hexc : env "exc_nr" = some (.num 4 0))
    (e : Ending Val) :
    ∃ bs, StubServer.invoke T f ⟨env, true, []⟩ (f.sig.map Param.name) e =
      some (bs, f.leaves T e) := by
  have hfree : ∀ x, (∀ p ∈ f.params, p.name ≠ x) → x ∉ f.sig.map Param.name := by
    intro x hx hmem
    obtain ⟨p, hsig, he⟩ := List.mem_map.mp hmem
    exact hx p (List.mem_filter.mp hsig).1 he
  have hfree_ret := hfree "retval" fun p hmem => (hp p hmem).1
  have hfree_exc := hfree "exc_nr" fun p hmem => (hp p hmem).2
  cases e with
  | throws e => exact handle_leaves hret hexc hp
  | returns out =>
    rw [Func.leaves]
    cases hfind : f.refs.find? fun q => !T.whole q.1.type (out q.1.type q.2) with
    | none =>
      have hwhole : ∀ q ∈ f.refs, T.whole q.1.type (out q.1.type q.2) = true := fun q hq => by
        simpa using List.find?_eq_none.mp hfind q hq
      exact ⟨_, invoke_returns hnd hfree_ret hret hwhole⟩
    | some q =>
      have hscope := @Func.replies_scope Val f out env hnd hfree_ret hret
      have hfirst : (f.replies out).find? (fun r => !r.2.whole T.toCoding) =
          some (result out q) := by
        rw [Func.replies, List.find?_cons_of_neg (by simp [Cell.whole]), List.find?_map]
        exact congrArg (Option.map (result out)) hfind
      obtain ⟨hnone, o, buf, ho, hraised⟩ := raised_puts
        (s := ⟨scope env (f.refs.map (result out)), true, []⟩) rfl hscope hfirst
      have hsub := f.refs_sublist out
      have hret' : scope env (f.refs.map (result out)) "retval" = some (.num 4 0) :=
        (scope_of_not_mem fun hm => hfree_ret (hsub.subset hm)).trans hret
      have hexc' : scope env (f.refs.map (result out)) "exc_nr" = some (.num 4 0) :=
        (scope_of_not_mem fun hm => hfree_exc (hsub.subset hm)).trans hexc
      cases ho
      rw [invoke_replies, hnone, hraised]
      exact handle_leaves hret' hexc' hp

end Rpc

end CodeSLoop
