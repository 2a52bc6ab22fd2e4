import ProcWatch.Model.Inflate

/-! # Inflated bodies are exact and bounded -/

namespace ProcWatch

open CLib

section Inflate

variable {ζ : Type} (z : Zlib ζ) (input output : Bytes)

/-! ## The contract of zlib -/

/-- The states that calls with `Z_OK` lead to, the input then left and the output so far. -/
inductive Streamed : ζ → Bytes → Bytes → Prop
  | init {state : ζ} : z.inflateInit2 = some state → Streamed state input []
  | call {state : ζ} {rest out : Bytes} {room : ℕ} : Streamed state rest out → room < 2 ^ 32 →
      (z.inflate state rest room).rc = .ok →
      Streamed (z.inflate state rest room).state
        (rest.drop (z.inflate state rest room).consumed)
        (out ++ (z.inflate state rest room).produced)

/-- Whatever the room in each call, `z` writes pieces of one output for the input. -/
structure Zlib.Obeys : Prop where
  consumed_le : ∀ {state rest out}, Streamed z input state rest out → ∀ room < 2 ^ 32,
    (z.inflate state rest room).consumed ≤ rest.length
  produced_le : ∀ {state rest out}, Streamed z input state rest out → ∀ room < 2 ^ 32,
    (z.inflate state rest room).produced.length ≤ room
  produced : ∀ {state rest out}, Streamed z input state rest out → ∀ room < 2 ^ 32,
    out ++ (z.inflate state rest room).produced <+: output
  progress : ∀ {state rest out}, Streamed z input state rest out → ∀ room < 2 ^ 32, 0 < room →
    (z.inflate state rest room).rc = .ok →
      0 < (z.inflate state rest room).consumed ∨ (z.inflate state rest room).produced ≠ []
  ended : ∀ {state rest out}, Streamed z input state rest out → ∀ room < 2 ^ 32,
    (z.inflate state rest room).rc = .streamEnd →
      out ++ (z.inflate state rest room).produced = output

/-- No call with output room fails. -/
structure Zlib.Valid : Prop where
  init : z.inflateInit2 ≠ none
  call : ∀ {state rest out}, Streamed z input state rest out → ∀ room < 2 ^ 32, 0 < room →
    (z.inflate state rest room).rc ≠ .error

/-! ## The invariant of the loop -/

/-- The buffer holds the output so far, and zlib the rest of the buffer as room. -/
structure Filling (maxOut : ℕ) (s : Inflation ζ) (out : Bytes) : Prop where
  streamed : Streamed z input s.state s.nextIn out
  buf : s.buf = out.map some ++ List.replicate s.availOut none
  nextOut : s.nextOut = out.length
  cap : s.cap = out.length + s.availOut
  cap_le : s.cap ≤ maxOut
  room : 0 < s.availOut ∨ maxOut = 0

/-- What the claimed result of a call is. -/
structure Exact (maxOut : ℕ) (r : InflateResult) : Prop where
  not_overrun : r ≠ .overrun
  success : ∀ buf outLen, r = .success buf outLen →
    outLen = output.length ∧ buf.take outLen = output.map some ∧ buf.length ≤ maxOut
  failure : maxOut < output.length → r = .failure
  inflated : z.Valid input → output.length < maxOut → ∃ buf outLen, r = .success buf outLen

variable {z input output}

theorem filling_start {state : ζ} {maxOut : ℕ} (hinit : z.inflateInit2 = some state)
    (hin : input.length < 2 ^ 32) (hmax : maxOut < 2 ^ 32) :
    Filling z input maxOut (inflationStart state input maxOut) [] := by
  have hcap : min ((input.length * 4 + 1024) % 2 ^ 64) maxOut % 2 ^ 32 =
      min ((input.length * 4 + 1024) % 2 ^ 64) maxOut := by
    apply Nat.mod_eq_of_lt
    omega
  have hinput : input.take (input.length % 2 ^ 32) = input := by
    rw [Nat.mod_eq_of_lt hin, List.take_length]
  constructor
  · change Streamed z input state (input.take _) []
    rw [hinput]
    exact .init hinit
  · simp only [inflationStart, malloc, hcap, List.map_nil, List.nil_append]
  · rfl
  · simp only [inflationStart, hcap, List.length_nil, Nat.zero_add]
  · exact min_le_right _ _
  · simp only [inflationStart, hcap]
    omega

theorem store_room {out b : Bytes} {room : ℕ} (h : b.length ≤ room) :
    store (out.map some ++ List.replicate room none) out.length b =
      some ((out ++ b).map some ++ List.replicate (room - b.length) none) := by
  have hlen : (out.map some ++ List.replicate room (none : Option Byte)).length =
      out.length + room := by
    simp
  have htake : (out.map some ++ List.replicate room none).take out.length = out.map some := by
    rw [List.take_left' (List.length_map _)]
  have hdrop : (out.map some ++ List.replicate room none).drop (out.length + b.length) =
      List.replicate (room - b.length) (none : Option Byte) := by
    rw [← List.drop_drop, List.drop_left' (List.length_map _), List.drop_replicate]
  rw [store, if_pos (by omega), htake, hdrop, List.map_append]

theorem realloc_full {out : Bytes} {size : ℕ} (h : out.length ≤ size) :
    realloc (out.map some) size = out.map some ++ List.replicate (size - out.length) none := by
  rw [realloc, List.take_of_length_le (by simpa using h), List.length_map]

/-- A turn either goes on, closer to the end of input or output, or ends with the exact result. -/
theorem inflateTurn_cases (hz : z.Obeys input output) {maxOut : ℕ} (hmax : maxOut < 2 ^ 32)
    {s : Inflation ζ} {out : Bytes} (h : Filling z input maxOut s out) :
    (∃ s' out', inflateTurn z maxOut s = .again s' ∧ Filling z input maxOut s' out' ∧
        s'.nextIn.length + (maxOut - out'.length) < s.nextIn.length + (maxOut - out.length)) ∨
      ∃ r, inflateTurn z maxOut s = .finished r ∧ Exact z input output maxOut r := by
  have hroom : s.availOut < 2 ^ 32 := by
    have := h.cap
    have := h.cap_le
    omega
  have hconsumed := hz.consumed_le h.streamed _ hroom
  have hproduced := hz.produced_le h.streamed _ hroom
  have hprefix := hz.produced h.streamed _ hroom
  have hnext : (z.inflate s.state s.nextIn s.availOut).rc = .ok →
      Streamed z input (z.inflate s.state s.nextIn s.availOut).state
        (s.nextIn.drop (z.inflate s.state s.nextIn s.availOut).consumed)
        (out ++ (z.inflate s.state s.nextIn s.availOut).produced) :=
    Streamed.call h.streamed hroom
  have hprogress := hz.progress h.streamed _ hroom
  have hended := hz.ended h.streamed _ hroom
  have hvalid : z.Valid input → 0 < s.availOut →
      (z.inflate s.state s.nextIn s.availOut).rc ≠ .error :=
    fun hv hpos => hv.call h.streamed _ hroom hpos
  have hstore : store s.buf s.nextOut (z.inflate s.state s.nextIn s.availOut).produced = some
      ((out ++ (z.inflate s.state s.nextIn s.availOut).produced).map some ++
        List.replicate (s.availOut - (z.inflate s.state s.nextIn s.availOut).produced.length)
          none) := by
    rw [h.buf, h.nextOut]
    exact store_room hproduced
  rw [inflateTurn]
  simp only [hstore]
  generalize z.inflate s.state s.nextIn s.availOut = call at *
  obtain ⟨state, consumed, b, rc⟩ := call
  simp only at *
  have hcap := h.cap
  have hcap_le := h.cap_le
  have hlen : (out ++ b).length = out.length + b.length := List.length_append
  have hle := hprefix.length_le
  cases rc with
  | streamEnd =>
      right
      have hout := hended rfl
      have houtlen : s.cap - (s.availOut - b.length) = output.length := by
        rw [← hout, hlen]
        omega
      refine ⟨_, rfl, ⟨by simp, ?_, ?_, fun _ _ => ⟨_, _, rfl⟩⟩⟩
      · intro buf outLen heq
        obtain ⟨rfl, rfl⟩ := InflateResult.success.inj heq
        rw [houtlen, hout]
        refine ⟨rfl, List.take_left' (List.length_map _), ?_⟩
        simp only [List.length_append, List.length_map, List.length_replicate]
        rw [← hout, hlen]
        omega
      · intro hlong
        rw [← hout, hlen] at hlong
        omega
  | error =>
      right
      refine ⟨_, rfl, ⟨by simp, by simp, fun _ => rfl, ?_⟩⟩
      intro hv hshort
      have hpos : 0 < s.availOut := h.room.resolve_right (by omega)
      exact absurd rfl (hvalid hv hpos)
  | ok =>
      by_cases hfull : s.availOut - b.length = 0
      · simp only [hfull, if_true]
        by_cases hlimit : maxOut ≤ s.cap
        · right
          rw [if_pos hlimit]
          refine ⟨_, rfl, ⟨by simp, by simp, fun _ => rfl, ?_⟩⟩
          intro _ hshort
          omega
        · left
          have hpos : 0 < s.availOut := h.room.resolve_right (by omega)
          have hmin : min (s.cap * 2 % 2 ^ 64) maxOut = min (s.cap * 2) maxOut := by omega
          have hnew : (min (s.cap * 2) maxOut + 2 ^ 64 - s.cap) % 2 ^ 32 =
              min (s.cap * 2) maxOut - s.cap := by
            omega
          rw [if_neg hlimit]
          refine ⟨_, out ++ b, rfl, ⟨hnext rfl, ?_, ?_, ?_, ?_, ?_⟩, ?_⟩
          · have hsize : (out ++ b).length ≤ min (s.cap * 2) maxOut := by omega
            have hgap : min (s.cap * 2) maxOut - (out ++ b).length =
                min (s.cap * 2) maxOut - s.cap := by omega
            simp only [List.replicate_zero, List.append_nil, hmin, hnew]
            rw [realloc_full hsize, hgap]
          · simp only
            omega
          · simp only [hmin, hnew]
            omega
          · exact min_le_right _ _
          · simp only [hmin, hnew]
            omega
          · have hmade := hprogress hpos rfl
            have hb : b ≠ [] → 0 < b.length := List.length_pos_iff.mpr
            simp only [List.length_drop]
            cases hmade with
            | inl hc => omega
            | inr hne =>
                have := hb hne
                omega
      · left
        simp only [hfull, if_false]
        have hpos : 0 < s.availOut := by omega
        refine ⟨_, out ++ b, rfl, ⟨hnext rfl, rfl, ?_, ?_, hcap_le, .inl ?_⟩, ?_⟩
        · simp only
          have := h.nextOut
          omega
        · simp only
          omega
        · simp only
          omega
        · have hmade := hprogress hpos rfl
          have hb : b ≠ [] → 0 < b.length := List.length_pos_iff.mpr
          simp only [List.length_drop]
          cases hmade with
          | inl hc => omega
          | inr hne =>
              have := hb hne
              omega

/-! ## Whole calls -/

variable (z input) in
/-- The states in front of the turns of one call. -/
inductive InLoop (maxOut : ℕ) : Inflation ζ → Prop
  | start {state : ζ} : z.inflateInit2 = some state →
      InLoop maxOut (inflationStart state input maxOut)
  | turn {s s' : Inflation ζ} : InLoop maxOut s → inflateTurn z maxOut s = .again s' →
      InLoop maxOut s'

theorem filling_of_inLoop (hz : z.Obeys input output) {maxOut : ℕ} (hin : input.length < 2 ^ 32)
    (hmax : maxOut < 2 ^ 32) {s : Inflation ζ} (h : InLoop z input maxOut s) :
    ∃ out, Filling z input maxOut s out := by
  induction h with
  | start hinit => exact ⟨[], filling_start hinit hin hmax⟩
  | turn _ hturn ih =>
      obtain ⟨out, hfilling⟩ := ih
      rcases inflateTurn_cases hz hmax hfilling with ⟨s'', out', hagain, hnext, -⟩ | ⟨r, hend, -⟩
      · obtain rfl := Turn.again.inj (hturn.symm.trans hagain)
        exact ⟨out', hnext⟩
      · rw [hturn] at hend
        cases hend

/-- The buffer is as large as the loop takes it to be, and no larger than allowed. -/
theorem Filling.length_buf {maxOut : ℕ} {s : Inflation ζ} {out : Bytes}
    (h : Filling z input maxOut s out) :
    s.buf.length = s.cap ∧ s.cap ≤ maxOut ∧ s.nextOut + s.availOut = s.cap := by
  refine ⟨?_, h.cap_le, ?_⟩
  · rw [h.buf, h.cap]
    simp
  · rw [h.nextOut, h.cap]

theorem inflateLoop_exact (hz : z.Obeys input output) {maxOut : ℕ} (hmax : maxOut < 2 ^ 32)
    {k : ℕ} {s : Inflation ζ} {out : Bytes} (h : Filling z input maxOut s out)
    (hk : s.nextIn.length + (maxOut - out.length) ≤ k) :
    ∃ r, (∀ fuel, k < fuel → inflateLoop z maxOut fuel s = some r) ∧
      Exact z input output maxOut r := by
  induction k generalizing s out with
  | zero =>
      rcases inflateTurn_cases hz hmax h with ⟨s', out', -, -, hless⟩ | ⟨r, hend, hexact⟩
      · omega
      · refine ⟨r, ?_, hexact⟩
        intro fuel hfuel
        obtain ⟨fuel, rfl⟩ := Nat.exists_eq_succ_of_ne_zero hfuel.ne'
        rw [inflateLoop, hend]
  | succ k ih =>
      rcases inflateTurn_cases hz hmax h with ⟨s', out', hagain, hnext, hless⟩ | ⟨r, hend, hexact⟩
      · obtain ⟨r, hrun, hexact⟩ := ih hnext (by omega)
        refine ⟨r, ?_, hexact⟩
        intro fuel hfuel
        obtain ⟨fuel, rfl⟩ := Nat.exists_eq_succ_of_ne_zero (Nat.ne_zero_of_lt hfuel)
        rw [inflateLoop, hagain]
        exact hrun fuel (by omega)
      · refine ⟨r, ?_, hexact⟩
        intro fuel hfuel
        obtain ⟨fuel, rfl⟩ := Nat.exists_eq_succ_of_ne_zero (Nat.ne_zero_of_lt hfuel)
        rw [inflateLoop, hend]

/-- Inflation terminates within its limit: the buffer never exceeds `maxOut` and is not written
past, a success is the whole output, and the output decides whether there is one. -/
theorem gzipInflate_exact (hz : z.Obeys input output) {maxOut : ℕ} (hin : input.length < 2 ^ 32)
    (hmax : maxOut < 2 ^ 32) :
    (∀ s, InLoop z input maxOut s →
        s.buf.length = s.cap ∧ s.cap ≤ maxOut ∧ s.nextOut + s.availOut = s.cap) ∧
      ∃ r, (∀ fuel, input.length + maxOut < fuel → gzipInflate z input maxOut fuel = some r) ∧
        r ≠ .overrun ∧
        (∀ buf outLen, r = .success buf outLen → outLen = output.length ∧
          buf.take outLen = output.map some ∧ buf.length ≤ maxOut) ∧
        (maxOut < output.length → r = .failure) ∧
        (z.Valid input → output.length < maxOut → ∃ buf outLen, r = .success buf outLen) := by
  constructor
  · intro s hs
    obtain ⟨out, hfilling⟩ := filling_of_inLoop hz hin hmax hs
    exact hfilling.length_buf
  · cases hinit : z.inflateInit2 with
    | none =>
        refine ⟨.failure, ?_, by simp, by simp, fun _ => rfl, fun hv => absurd hinit hv.init⟩
        intro fuel _
        rw [gzipInflate, hinit]
    | some state =>
        have hstart := filling_start hinit hin hmax
        have hin' : (inflationStart state input maxOut).nextIn.length ≤ input.length :=
          List.length_take_le' _ _
        obtain ⟨r, hrun, hexact⟩ := inflateLoop_exact hz hmax hstart
          (k := input.length + maxOut) (by simpa using Nat.add_le_add_right hin' maxOut)
        refine ⟨r, ?_, hexact.not_overrun, hexact.success, hexact.failure, hexact.inflated⟩
        intro fuel hfuel
        rw [gzipInflate, hinit]
        exact hrun fuel hfuel

end Inflate

/-- zlib on the calls for 2000 letters `a`: the last ten bytes of input are taken with the last
bytes of output. -/
def repeatedLetter : Zlib Bytes where
  inflateInit2 := some (List.replicate 2000 0x61)
  inflate data rest room :=
    { state := data.drop room
      consumed := if data.length ≤ room then rest.length else rest.length - 10
      produced := data.take room
      rc := if data.length ≤ room then .streamEnd else .ok }

/-- The compressed form of these letters. -/
def compressedLetters : Bytes :=
  [120, 156, 75, 76, 28, 5, 163, 96, 20, 140, 130, 81, 48, 10, 70, 193, 80, 7, 0, 100, 198, 245, 239]

theorem streamed_repeatedLetter {input state rest out : Bytes}
    (h : Streamed repeatedLetter input state rest out) :
    out ++ state = List.replicate 2000 0x61 := by
  induction h with
  | init hinit => exact (Option.some.inj hinit).symm
  | @call data rest out room _ _ _ ih =>
      change (out ++ data.take room) ++ data.drop room = _
      rw [List.append_assoc, List.take_append_drop, ih]

theorem obeys_repeatedLetter (input : Bytes) :
    repeatedLetter.Obeys input (List.replicate 2000 0x61) where
  consumed_le := by
    intro data rest out _ room _
    simp only [repeatedLetter]
    split <;> omega
  produced_le := fun _ room _ => List.length_take_le room _
  produced := by
    intro data rest out h room _
    rw [← streamed_repeatedLetter h]
    exact (List.prefix_append_right_inj _).mpr (List.take_prefix room data)
  progress := by
    intro data rest out _ room _ hpos hok
    simp only [repeatedLetter] at hok ⊢
    split at hok
    · cases hok
    · right
      intro hnil
      have hlen := congrArg List.length hnil
      rw [List.length_take, List.length_nil] at hlen
      omega
  ended := by
    intro data rest out h room _ hend
    simp only [repeatedLetter] at hend ⊢
    split at hend
    · next hle => rw [List.take_of_length_le hle, streamed_repeatedLetter h]
    · cases hend

theorem valid_repeatedLetter (input : Bytes) : repeatedLetter.Valid input where
  init := by
    intro h
    cases h
  call := by
    intro data rest out _ room _ _
    simp only [repeatedLetter]
    split <;> simp

theorem gzipInflate_exact_repeatedLetter :
    ∃ buf, gzipInflate repeatedLetter compressedLetters 4096 (compressedLetters.length + 4097) =
        some (.success buf 2000) ∧
      buf.take 2000 = (List.replicate 2000 0x61).map some := by
  obtain ⟨-, r, hrun, -, hsuccess, -, hinflated⟩ :=
    @gzipInflate_exact Bytes repeatedLetter compressedLetters _
      (obeys_repeatedLetter compressedLetters) 4096 (by decide) (by decide)
  obtain ⟨buf, outLen, rfl⟩ := hinflated (valid_repeatedLetter _) (by
    rw [List.length_replicate]
    decide)
  obtain ⟨hlen, htake, -⟩ := hsuccess buf outLen rfl
  rw [List.length_replicate] at hlen
  subst hlen
  exact ⟨buf, hrun _ (Nat.lt_succ_self _), htake⟩

end ProcWatch
