import CodeSLoop.Common.WorkBuffer

/-!
# When a work buffer stays inside its storage

`within_iff` answers, for `limited_work_buffer` and for `rdbuf`, when the stored bytes lie
inside `MaxSize` and inside the allocated bytes, and every part handed out does too. The
answer is a condition on the calls of `reserve` alone: a request that is met in full asks
`tbuf::allocate` for `len_ + sz` bytes and then uses the bytes up to `start_ + len_ + sz`,
so it must come while `start_` is zero.
-/

namespace CodeSLoop

open Memory Lts

namespace WorkBuffer

variable {Preallocated MaxSize : UInt64} {w : WorkBuffer Preallocated MaxSize} {m : Malloc}

/-- The stored bytes are within the limit and within the allocated bytes. -/
structure Within (w : WorkBuffer Preallocated MaxSize) : Prop where
  le_max : w.start.toNat + w.len.toNat ≤ MaxSize.toNat
  le_size : w.start.toNat + w.len.toNat ≤ w.buf.size.toNat

/-- A part lies inside the allocated bytes. A part of no bytes is the answer of a call that
    had nothing to hand out. -/
def Inside (w : WorkBuffer Preallocated MaxSize) (rr : Part) : Prop :=
  rr.bytes ≠ 0 → (rr.data - w.buf.data).toNat + rr.bytes.toNat ≤ w.buf.size.toNat

/-- The calls that keep to the storage. `reserve` does when it is refused or asks for nothing;
    when it is cut down to the room that `MaxSize` leaves and that room can be had; and when,
    met in full, it comes before anything was taken from the front, its size is a 64-bit
    number and the memory can be had. -/
def Fits (w : WorkBuffer Preallocated MaxSize) (m : Malloc) : Op → Prop
  | .reserve sz =>
    if w.start + w.len + sz > MaxSize then
      w.start + w.len < MaxSize → w.buf.NeedsMalloc MaxSize → (m.answer MaxSize).isSome
    else
      sz ≠ 0 → w.start = 0 ∧ w.len.toNat + sz.toNat < 2 ^ 64 ∧
        (w.buf.NeedsMalloc (w.len + sz) → (m.answer (w.len + sz)).isSome)
  | .get _ | .adjust _ _ => True

instance (w : WorkBuffer Preallocated MaxSize) : Decidable w.Within :=
  decidable_of_iff (w.start.toNat + w.len.toNat ≤ MaxSize.toNat ∧
      w.start.toNat + w.len.toNat ≤ w.buf.size.toNat)
    ⟨fun h => ⟨h.1, h.2⟩, fun h => ⟨h.1, h.2⟩⟩

instance (w : WorkBuffer Preallocated MaxSize) (rr : Part) : Decidable (w.Inside rr) := by
  unfold Inside; infer_instance

instance (w : WorkBuffer Preallocated MaxSize) (m : Malloc) (op : Op) :
    Decidable (w.Fits m op) := by
  cases op <;> unfold Fits <;> infer_instance

theorem within_init {area : Block} (h : area.bytes.length = Preallocated.toNat) :
    (init area h : WorkBuffer Preallocated MaxSize).Within :=
  ⟨by simp [init], by simp [init, Tbuf.init]⟩

/-! The sums and differences of a state within the limit do not wrap. -/

section Sums

variable (hmax : w.start.toNat + w.len.toNat ≤ MaxSize.toNat)
include hmax

theorem toNat_start_add_len : (w.start + w.len).toNat = w.start.toNat + w.len.toNat := by
  have := MaxSize.toNat_lt
  rw [UInt64.toNat_add]
  omega

theorem toNat_nFree : w.nFree.toNat = MaxSize.toNat - w.start.toNat - w.len.toNat := by
  have := MaxSize.toNat_lt
  simp only [nFree, UInt64.toNat_sub]
  omega

/-- After `ret` bytes, no more than are stored, were taken. -/
theorem toNat_taken {ret : UInt64} (hret : ret.toNat ≤ w.len.toNat) :
    (w.len - ret).toNat = w.len.toNat - ret.toNat ∧
      (w.start + ret).toNat = w.start.toNat + ret.toNat := by
  have := MaxSize.toNat_lt
  exact ⟨UInt64.toNat_sub_of_le _ _ (UInt64.le_iff_toNat_le.mpr hret), by
    rw [UInt64.toNat_add]; omega⟩

end Sums

/-- A pointer `off` bytes into the area is at offset `off`. -/
theorem data_add_add_sub (a b c : UInt64) : a + b + c - a = b + c := by
  rw [UInt64.add_assoc, UInt64.add_comm, UInt64.add_sub_cancel]

/-! ## `get` -/

/-- `get` has nothing to hand out, or hands out as many bytes as are asked for and there. -/
theorem get_cases (w : WorkBuffer Preallocated MaxSize) (sz : UInt64) :
    (∃ failed, w.get sz = (w, { Part.reset with failed := failed })) ∨
    ∃ ret : UInt64, ret.toNat = min w.len.toNat sz.toNat ∧
      w.get sz = ({ w with
          start := if w.len - ret = 0 then 0 else w.start + ret
          len := w.len - ret },
        { Part.reset with data := w.buf.data + w.start, bytes := ret }) := by
  unfold get
  by_cases h0 : sz = 0
  · exact .inl ⟨true, if_pos h0⟩
  rw [if_neg h0]
  by_cases hlen : 0 < w.len
  · refine .inr ⟨if w.len > sz then sz else w.len, ?_, if_pos hlen⟩
    split
    · rename_i hgt
      exact (Nat.min_eq_right (Nat.le_of_lt (UInt64.lt_iff_toNat_lt.mp hgt))).symm
    · rename_i hle
      have := (not_congr UInt64.lt_iff_toNat_lt).mp hle
      exact (Nat.min_eq_left (Nat.le_of_not_lt this)).symm
  · exact .inl ⟨false, if_neg hlen⟩

theorem get_within (h : w.Within) (sz : UInt64) : (w.get sz).1.Within := by
  have h1 := h.le_max
  have h2 := h.le_size
  rcases get_cases w sz with ⟨failed, he⟩ | ⟨ret, hret, he⟩
  · rw [he]; exact h
  · obtain ⟨hlen, hstart⟩ := toNat_taken h.le_max (show ret.toNat ≤ w.len.toNat by omega)
    rw [he]
    dsimp only
    by_cases h0 : w.len - ret = 0
    · rw [if_pos h0, h0]
      exact ⟨by simp, by simp⟩
    · rw [if_neg h0]
      constructor <;> simp only [hlen, hstart] <;> omega

theorem get_inside (h : w.Within) (sz : UInt64) : (w.get sz).1.Inside (w.get sz).2 := by
  have h2 := h.le_size
  rcases get_cases w sz with ⟨failed, he⟩ | ⟨ret, hret, he⟩
  · rw [he]; exact fun hne => absurd rfl hne
  · have hoff : w.buf.data + w.start - w.buf.data = w.start := by
      rw [UInt64.add_comm, UInt64.add_sub_cancel]
    rw [he]
    intro _
    dsimp only
    rw [hoff]
    omega

/-! ## `adjust` -/

theorem adjust_within (h : w.Within) (rr : Part) (n : UInt64) : (w.adjust m rr n).1.Within := by
  have h1 := h.le_max
  have h2 := h.le_size
  unfold adjust
  dsimp only
  split
  · exact h
  · rename_i hok
    simp only [not_or, UInt64.lt_iff_toNat_lt, Nat.not_lt] at hok
    obtain ⟨hn, -, -, hlen, -⟩ := hok
    have hadj : (rr.bytes - n).toNat = rr.bytes.toNat - n.toNat :=
      UInt64.toNat_sub_of_le _ _ (UInt64.le_iff_toNat_le.mpr hn)
    have hnew : (w.len - (rr.bytes - n)).toNat = w.len.toNat - (rr.bytes.toNat - n.toNat) := by
      rw [UInt64.toNat_sub_of_le _ _ (UInt64.le_iff_toNat_le.mpr (by omega)), hadj]
    generalize w.len - (rr.bytes - n) = len at hnew
    split
    · -- everything was given back
      rename_i h0
      subst h0
      constructor <;> simp [Tbuf.allocate_zero, Tbuf.reset]
    · rename_i h0
      have h0' : len.toNat ≠ 0 := fun hz => h0 (UInt64.toNat_inj.mp hz)
      split
      · -- `start_ + len_` bytes are asked for, no more than are there
        have hsum : (len + w.start).toNat = len.toNat + w.start.toNat := by
          have := MaxSize.toNat_lt
          rw [UInt64.toNat_add]; omega
        obtain ⟨hsize, -⟩ := Tbuf.allocate_inplace (t := w.buf) (m := m)
          (show len + w.start ≠ 0 from fun hz => by rw [hz, UInt64.toNat_zero] at hsum; omega)
          (Tbuf.not_needsMalloc_of_le (UInt64.le_iff_toNat_le.mpr (by omega)))
        constructor <;> simp only [hsize] <;> omega
      · constructor <;> dsimp only <;> omega

/-! ## `reserve` -/

/-- A request cut down to the room that is left. -/
theorem reserve_cut_iff (h : w.Within) {sz : UInt64} (hgt : w.start + w.len + sz > MaxSize)
    (hroom : w.start + w.len < MaxSize) :
    ((w.reserve m sz).1.Within ∧ (w.reserve m sz).1.Inside (w.reserve m sz).2) ↔
      (w.buf.NeedsMalloc MaxSize → (m.answer MaxSize).isSome) := by
  have hsum := toNat_start_add_len h.le_max
  have hfree := toNat_nFree h.le_max
  have hlt : w.start.toNat + w.len.toNat < MaxSize.toNat := by
    rw [← hsum]; exact UInt64.lt_iff_toNat_lt.mp hroom
  have hne : MaxSize ≠ 0 := by
    intro hz
    have := congrArg UInt64.toNat hz
    rw [UInt64.toNat_zero] at this; omega
  have hlen : (MaxSize - w.start).toNat = MaxSize.toNat - w.start.toNat :=
    UInt64.toNat_sub_of_le _ _ (UInt64.le_iff_toNat_le.mpr (by omega))
  unfold reserve
  dsimp only
  rw [if_pos hgt, if_pos hroom]
  constructor
  · rintro ⟨hw, -⟩ hneed
    cases hm : m.answer MaxSize with
    | some b => rfl
    | none =>
      -- the buffer is still the old one, which is too short
      have hle := hw.le_size
      have := (not_congr UInt64.le_iff_toNat_le).mp hneed.2.1
      rw [Tbuf.allocate_refused hneed hm] at hle
      dsimp only at hle
      omega
  · intro hm
    obtain ⟨hsize, hptr, -⟩ := Tbuf.allocate_met hne hm
    refine ⟨⟨?_, ?_⟩, fun _ => ?_⟩
    · dsimp only; omega
    · dsimp only; rw [hsize]; omega
    · dsimp only
      rw [hptr, hsize, data_add_add_sub, hsum, hfree]
      omega

/-- A request met in full. -/
theorem reserve_full_iff (h : w.Within) {sz : UInt64} (hle : ¬ w.start + w.len + sz > MaxSize)
    (h0 : sz ≠ 0) :
    ((w.reserve m sz).1.Within ∧ (w.reserve m sz).1.Inside (w.reserve m sz).2) ↔
      (w.start = 0 ∧ w.len.toNat + sz.toNat < 2 ^ 64 ∧
        (w.buf.NeedsMalloc (w.len + sz) → (m.answer (w.len + sz)).isSome)) := by
  have hsum := toNat_start_add_len h.le_max
  have hmax := h.le_max
  have hsize := h.le_size
  have hsz : sz.toNat ≠ 0 := fun hz => h0 (UInt64.toNat_inj.mp hz)
  have hM := MaxSize.toNat_lt
  have hlenlt := w.len.toNat_lt
  have hszlt := sz.toNat_lt
  have hadd : (w.len + sz).toNat = (w.len.toNat + sz.toNat) % 2 ^ 64 := UInt64.toNat_add ..
  unfold reserve
  dsimp only
  rw [if_neg hle, if_neg h0]
  constructor
  · rintro ⟨hw, hin⟩
    have hwsize := hw.le_size
    have hinside := hin h0
    dsimp only at hwsize hinside
    by_cases hz : w.len + sz = 0
    · -- the sum has wrapped to zero and the buffer was emptied
      rw [hz, Tbuf.allocate_zero] at hinside
      have : w.buf.reset.size.toNat = 0 := rfl
      dsimp only at hinside
      omega
    by_cases hneed : w.buf.NeedsMalloc (w.len + sz) ∧ m.answer (w.len + sz) = none
    · -- nothing was allocated, so the buffer is too short already
      rw [Tbuf.allocate_refused hneed.1 hneed.2] at hwsize
      have := (not_congr UInt64.le_iff_toNat_le).mp hneed.1.2.1
      dsimp only at hwsize
      omega
    have hm : w.buf.NeedsMalloc (w.len + sz) → (m.answer (w.len + sz)).isSome := by
      intro hn
      rw [Option.isSome_iff_ne_none]
      exact fun hno => hneed ⟨hn, hno⟩
    obtain ⟨hs, hp, -⟩ := Tbuf.allocate_met hz hm
    rw [hs] at hwsize hinside
    rw [hp, data_add_add_sub, hsum] at hinside
    have hstart : w.start.toNat = 0 := by omega
    exact ⟨UInt64.toNat_inj.mp hstart, by omega, hm⟩
  · rintro ⟨hstart, hfit, hm⟩
    have hs0 : w.start.toNat = 0 := by rw [hstart]; rfl
    have hz : w.len + sz ≠ 0 := by
      intro hz
      rw [hz, UInt64.toNat_zero] at hadd
      omega
    obtain ⟨hs, hp, -⟩ := Tbuf.allocate_met hz hm
    have hnew : (w.len + sz).toNat ≤ MaxSize.toNat := by
      have := (not_congr UInt64.lt_iff_toNat_lt).mp hle
      rwa [hstart, UInt64.zero_add, Nat.not_lt] at this
    refine ⟨⟨?_, ?_⟩, fun _ => ?_⟩
    · dsimp only; omega
    · dsimp only; rw [hs]; omega
    · dsimp only
      rw [hp, hs, data_add_add_sub, hsum]
      omega

theorem reserve_within_iff (h : w.Within) (sz : UInt64) :
    ((w.reserve m sz).1.Within ∧ (w.reserve m sz).1.Inside (w.reserve m sz).2) ↔
      w.Fits m (.reserve sz) := by
  simp only [Fits]
  by_cases hgt : w.start + w.len + sz > MaxSize
  · rw [if_pos hgt]
    by_cases hroom : w.start + w.len < MaxSize
    · rw [reserve_cut_iff h hgt hroom]
      exact ⟨fun hm _ => hm, fun hm => hm hroom⟩
    · refine iff_of_true ?_ (fun hr => absurd hr hroom)
      unfold reserve
      dsimp only
      rw [if_pos hgt, if_neg hroom]
      exact ⟨h, fun hne => absurd rfl hne⟩
  · rw [if_neg hgt]
    by_cases h0 : sz = 0
    · refine iff_of_true ?_ (fun hne => absurd h0 hne)
      unfold reserve
      dsimp only
      rw [if_neg hgt, if_pos h0]
      exact ⟨h, fun hne => absurd rfl hne⟩
    · rw [reserve_full_iff h hgt h0]
      exact ⟨fun hm _ => hm, fun hm => hm h0⟩

/-! ## Runs -/

/-- What is asked of one step: the state after it is within its bounds, and a part that
    `reserve` or `get` handed out lies inside the storage. -/
def Sound (_ : WorkBuffer Preallocated MaxSize) (a : Event)
    (w' : WorkBuffer Preallocated MaxSize) : Prop :=
  w'.Within ∧ match a.op with
    | .get _ | .reserve _ => w'.Inside a.part
    | .adjust _ _ => True

/-- The step's call is one that keeps to the storage. -/
def Guarded (w : WorkBuffer Preallocated MaxSize) (a : Event)
    (_ : WorkBuffer Preallocated MaxSize) : Prop :=
  w.Fits a.malloc a.op

instance (w : WorkBuffer Preallocated MaxSize) (a : Event) (w' : WorkBuffer Preallocated MaxSize) :
    Decidable (Sound w a w') := by
  unfold Sound; cases a.op <;> infer_instance

instance (w : WorkBuffer Preallocated MaxSize) (a : Event) (w' : WorkBuffer Preallocated MaxSize) :
    Decidable (Guarded w a w') := by
  unfold Guarded; infer_instance

theorem step_sound_iff {a : Event} {w' : WorkBuffer Preallocated MaxSize} (h : w.Within)
    (hs : LimitedWorkBuffer.Step w a w') : Sound w a w' ↔ Guarded w a w' := by
  obtain ⟨op, m, rr⟩ := a
  cases op with
  | get sz =>
    have hs : w.get sz = (w', rr) := hs
    have hw := get_within h sz
    have hi := get_inside h sz
    rw [hs] at hw hi
    exact iff_of_true ⟨hw, hi⟩ trivial
  | reserve sz =>
    have hs : w.reserve m sz = (w', rr) := hs
    have hr := reserve_within_iff (m := m) h sz
    rw [hs] at hr
    exact hr
  | adjust rr₀ n =>
    have hs : w.adjust m rr₀ n = (w', rr) := hs
    have hw := adjust_within (m := m) h rr₀ n
    rw [hs] at hw
    exact iff_of_true ⟨hw, trivial⟩ trivial

theorem rdbuf_step_sound_iff {assertTesting : Bool} {a : Event}
    {w' : WorkBuffer Preallocated MaxSize} (h : w.Within)
    (hs : Rdbuf.Step assertTesting w a w') : Sound w a w' ↔ Guarded w a w' := by
  rcases Rdbuf.exec_cases assertTesting w a.malloc a.op with he | ⟨rr, n, hop, he⟩
  · exact step_sound_iff h (he.symm.trans hs)
  · obtain ⟨op, m, rr'⟩ := a
    dsimp only at hop he
    subst hop
    have hw : (w, rr) = (w', rr') := he.symm.trans hs
    cases hw
    exact iff_of_true ⟨h, trivial⟩ trivial

/-- **A work buffer and its storage, over every run.** For every size of the preallocated area
    and every limit: in a run of either class, every state keeps its stored bytes within the
    limit and within the allocated bytes, and every part handed out lies inside them, exactly
    when every `reserve` of the run is one that fits. -/
theorem within_iff (area : Block) (harea : area.bytes.length = Preallocated.toNat) :
    (∀ tr, Run LimitedWorkBuffer.Step (init area harea : WorkBuffer Preallocated MaxSize) tr →
      (Always Sound (init area harea) tr ↔ Always Guarded (init area harea) tr)) ∧
    (∀ assertTesting tr,
      Run (Rdbuf.Step assertTesting) (init area harea : WorkBuffer Preallocated MaxSize) tr →
      (Always Sound (init area harea) tr ↔ Always Guarded (init area harea) tr)) := by
  refine ⟨fun tr h => ?_, fun assertTesting tr h => ?_⟩
  · exact h.always_iff (I := Within) (fun _ _ _ hi hs => step_sound_iff hi hs)
      (fun _ _ _ _ _ hp => hp.1) (within_init harea)
  · exact h.always_iff (I := Within) (fun _ _ _ hi hs => rdbuf_step_sound_iff hi hs)
      (fun _ _ _ _ _ hp => hp.1) (within_init harea)

/-- Eight bytes at address 4096, for the runs below. -/
def sampleArea : Block := ⟨4096, List.replicate 8 0, by decide, by decide⟩

/-- A heap that meets every request of up to 16 bytes, with zeros at address 8192. -/
def sampleHeap : Malloc := .within 8192 16 0 (by decide) (by decide)

/-- Room for four bytes is made, one byte is taken, room for one more is made: four bytes are
    asked for, the fifth is used. -/
def shortOps : List (Op × Malloc) :=
  [(.reserve 4, .fail), (.get 1, .fail), (.reserve 1, .fail)]

theorem within_fails :
    (∃ tr, Run LimitedWorkBuffer.Step (init sampleArea rfl : WorkBuffer 8 16) tr ∧
      tr.map (·.1.op) = [.reserve 4, .get 1, .reserve 1] ∧
      ¬ Always Sound (init sampleArea rfl) tr) ∧
    (∃ tr, Run (Rdbuf.Step false) (init sampleArea rfl : WorkBuffer 8 16) tr ∧
      tr.map (·.1.op) = [.reserve 4, .get 1, .reserve 1] ∧
      ¬ Always Sound (init sampleArea rfl) tr) :=
  ⟨⟨_, run_replay LimitedWorkBuffer.exec shortOps, rfl, by decide⟩,
    ⟨_, run_replay (Rdbuf.exec false) shortOps, rfl, by decide⟩⟩

/-- A run that gives room back, moves to the heap, drains the buffer and fills it up to the
    limit. -/
def fullOps : List (Op × Malloc) :=
  [(.reserve 4, .fail), (.adjust ⟨4096, 4, false, false⟩ 2, .fail), (.reserve 8, sampleHeap),
    (.get 12, .fail), (.reserve 99, .within 12288 16 0 (by decide) (by decide)), (.get 20, .fail)]

theorem within_iff_full :
    Always Sound (init sampleArea rfl : WorkBuffer 8 16)
      (replay LimitedWorkBuffer.exec (init sampleArea rfl) fullOps) ∧
    Always Sound (init sampleArea rfl : WorkBuffer 8 16)
      (replay (Rdbuf.exec true) (init sampleArea rfl) fullOps) :=
  ⟨((within_iff sampleArea rfl).1 _ (run_replay LimitedWorkBuffer.exec fullOps)).mpr
      (by decide),
    ((within_iff sampleArea rfl).2 true _ (run_replay (Rdbuf.exec true) fullOps)).mpr
      (by decide)⟩

end WorkBuffer

end CodeSLoop
