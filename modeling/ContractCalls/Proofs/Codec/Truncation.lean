import ContractCalls.Proofs.Codec.Form

/-!
# Bytes that are cut off

A reader looks at the bytes of the value it reads and at no others: on any bytes that start alike it
gives the same value (`IsForm.read_append`). The check of a count of items is the one step that asks
how many bytes are left, and the items of a value fill what it asks for. If the bytes of a value are
cut, there are too few of them for some step, and that is the only error the reader then gives
(`IsForm.runsShort`).
-/

namespace ContractCalls

/-- The front of joined bytes ends in the first ones or in the second ones. -/
lemma Bytes.take_append_cases {bs cs : Bytes} {k : Nat} (cut : k < (bs ++ cs).length) :
    (k < bs.length ∧ (bs ++ cs).take k = bs.take k) ∨
      ∃ j < cs.length, (bs ++ cs).take k = bs ++ cs.take j := by
  rw [List.length_append] at cut
  by_cases first : k < bs.length
  · exact .inl ⟨first, List.take_append_of_le_length first.le⟩
  · refine .inr ⟨k - bs.length, by omega, ?_⟩
    rw [List.take_append, List.take_of_length_le (by omega)]

namespace Reader

variable {α β : Type} {x : Reader α} {f : α → Reader β} {a : α} {bs mid : Bytes} {t element : Ty}
  {n : Nat}

/-- A reader fails because there are too few bytes. -/
def RunsShort (x : Reader α) (bs : Bytes) : Prop :=
  ∃ t needed available rest, x bs = (.error (.underflow t needed available), rest)

/-- What is read behind a reader that fails does not matter. -/
lemma RunsShort.bind (h : x.RunsShort bs) (f : α → Reader β) : (x >>= f).RunsShort bs := by
  obtain ⟨t, needed, available, rest, e⟩ := h
  refine ⟨t, needed, available, rest, ?_⟩
  change Reader.bind x f bs = _
  rw [Reader.bind, e]

/-- Behind a reader with a result the next one may fail. -/
lemma RunsShort.behind (e : x bs = (.ok a, mid)) (h : (f a).RunsShort mid) :
    (x >>= f).RunsShort bs := by
  obtain ⟨t, needed, available, rest, short⟩ := h
  refine ⟨t, needed, available, rest, ?_⟩
  change Reader.bind x f bs = _
  rw [Reader.bind, e]
  exact short

/-- Fewer bytes than are asked for are too few. -/
lemma take_runsShort (t : Ty) (few : bs.length < n) : (take t n).RunsShort bs := by
  refine ⟨t, n, bs.length, bs, ?_⟩
  have other : (bs.take n).length ≠ n := by
    rw [List.length_take]
    omega
  rw [take, dif_neg other]

/-- No byte is taken where there is none. -/
lemma takeByte_runsShort (t : Ty) : (takeByte t).RunsShort [] :=
  (take_runsShort t (by simp)).bind _

/-- No length is taken from fewer than four bytes. -/
lemma takeLength_runsShort (t : Ty) (few : bs.length < 4) : (takeLength t).RunsShort bs :=
  (take_runsShort t few).bind _

/-- A payload is short if its length or what it counts is cut. -/
lemma takePrefixed_runsShort (t : Ty) {payload : Bytes} (small : payload.length < Value.lengthBound)
    {k : Nat} (cut : k < (Bytes.ofNatFixed 4 payload.length ++ payload).length) :
    (takePrefixed t).RunsShort ((Bytes.ofNatFixed 4 payload.length ++ payload).take k) := by
  rcases Bytes.take_append_cases cut with ⟨inLength, same⟩ | ⟨j, inPayload, same⟩
  · rw [same]
    refine (takeLength_runsShort t ?_).bind _
    simpa using inLength
  · rw [same]
    refine .behind (takeLength_eq_ok_iff.mpr ⟨small, rfl⟩) ((take_runsShort t ?_).bind _)
    simpa using inPayload

/-- A count of items passes or finds too few bytes, if there are few items that take none. -/
lemma checkCount_eq_ok_or_runsShort (few : element.minWidth = 0 → n ≤ maxEmptyItems) (bs : Bytes) :
    checkCount t element n bs = (.ok (), bs) ∨ (checkCount t element n).RunsShort bs := by
  by_cases zero : element.minWidth = 0
  · exact .inl (checkCount_eq_ok_iff.mpr ⟨by simpa [zero] using few zero, rfl⟩)
  · by_cases short : bs.length < Ty.saturate (n * element.minWidth)
    · refine .inr ⟨t, Ty.saturate (n * element.minWidth), bs.length, bs, ?_⟩
      simp [checkCount, zero, short]
    · exact .inl (checkCount_eq_ok_iff.mpr ⟨by simpa [zero] using short, rfl⟩)

end Reader

namespace Value

open Reader (RunsShort takeByte_eq_ok_iff takeLength_eq_ok_iff checkCount_eq_ok_or_runsShort)

variable {t : Ty} {ts : List Ty} {p : Primitive} {v : Value} {vs : List Value} {bs rest : Bytes}
  {n k : Nat}

/-! ## Values whose bytes are cut -/

/-- The bytes of a value of fixed width are as many as its reader takes. -/
lemma IsLeaf.runsShort (h : IsLeaf p v) (sized : p.fixedWidth?.isSome)
    (e : v.encodeNested = .ok bs) (cut : k < bs.length) :
    (readPrimitive p).RunsShort (bs.take k) := by
  cases h with
  | int t n =>
    obtain rfl : n.toBytes = bs := by simpa [encodeNested] using e
    exact (Reader.take_runsShort _ (by simpa using cut)).bind _
  | bool b =>
    obtain rfl : [if b then 1 else 0] = bs := by simpa [encodeNested] using e
    obtain rfl : k = 0 := by simpa using cut
    exact (Reader.takeByte_runsShort _).bind _
  | address key =>
    obtain rfl : key.bytes = bs := by simpa [encodeNested] using e
    rw [key.length_bytes] at cut
    refine (Reader.take_runsShort _ ?_).bind _
    simpa using .inl cut
  | hash key =>
    obtain rfl : key.bytes = bs := by simpa [encodeNested] using e
    rw [key.length_bytes] at cut
    refine (Reader.take_runsShort _ ?_).bind _
    simpa using .inl cut
  | payload sizeless _ _ _ => simp [sizeless] at sized

/-- Behind the check of a count, items that run short make the whole run short: either the check
itself finds too few bytes, or it passes and the items are read. -/
lemma runsShort_behind_checkCount {α : Type} {owner : Ty} {items : Reader α}
    (few : t.minWidth = 0 → n ≤ Reader.maxEmptyItems) (short : items.RunsShort bs) :
    (do Reader.checkCount owner t n; items).RunsShort bs := by
  rcases checkCount_eq_ok_or_runsShort few bs with passed | failed
  · exact .behind passed short
  · exact failed.bind _

/-- If the bytes of a value are cut, its reader runs short. -/
theorem IsForm.runsShort (h : IsForm t bs v) (few : v.All HasFewEmptyItems) (cut : k < bs.length) :
    (read t).RunsShort (bs.take k) := by
  -- The second motive says the same of values one after another.
  induction h using IsForm.rec
    (motive_2 := fun ts bs vs _ => (∀ v ∈ vs, v.All HasFewEmptyItems) → ∀ k < bs.length,
      (readAll ts).RunsShort (bs.take k)) generalizing k with
  | fixed sized leaf written => exact leaf.runsShort sized written cut
  | payload sizeless small content =>
    rw [read, readPrimitive_eq sizeless]
    exact (Reader.takePrefixed_runsShort _ small cut).bind _
  | absent =>
    obtain rfl : k = 0 := by simpa using cut
    rw [read, readOption]
    exact ((Reader.takeByte_runsShort _).bind _).bind _
  | present form ih =>
    rw [read, readOption]
    cases k with
    | zero => exact ((Reader.takeByte_runsShort _).bind _).bind _
    | succ k =>
      have inner := ih (few.part (by simp [parts])) (k := k) (by simpa using cut)
      refine .bind (.behind (takeByte_eq_ok_iff.mpr rfl) ?_) _
      exact inner.bind _
  | @list t ts bs vs small forms ih =>
    rcases Bytes.take_append_cases cut with ⟨inLength, same⟩ | ⟨j, inItems, same⟩
    · rw [same, read]
      exact (Reader.takeLength_runsShort _ (by simpa using inLength)).bind _
    · have items := ih (fun v hv => few.part hv) j inItems
      rw [← times_read] at items
      rw [same, read]
      refine .behind (takeLength_eq_ok_iff.mpr ⟨small, rfl⟩) ?_
      exact runsShort_behind_checkCount few.root (items.bind _)
  | tuple forms ih =>
    rw [read]
    exact (ih (fun v hv => few.part hv) k cut).bind _
  | @array length t bs vs size forms ih =>
    have items := ih (fun v hv => few.part hv) k cut
    rw [← times_read, size] at items
    rw [read]
    exact runsShort_behind_checkCount (fun zero => size ▸ few.root zero) (items.bind _)
  | struct forms ih =>
    rw [read, readFields_eq]
    exact (ih (fun v hv => few.part hv) k cut).bind _
  | enum found forms ih =>
    rw [read]
    cases k with
    | zero => exact (Reader.takeByte_runsShort _).bind _
    | succ k =>
      have fields := ih (fun v hv => few.part hv) k (by simpa using cut)
      rw [← readVariant_eq_of_find? found] at fields
      exact .behind (takeByte_eq_ok_iff.mpr rfl) (fields.bind _)
  | nil => simp at *
  | @cons t ts b c v vs form forms ih ihs few k cut =>
    simp only [List.forall_mem_cons] at few
    rw [readAll]
    rcases Bytes.take_append_cases cut with ⟨inFirst, same⟩ | ⟨j, inOthers, same⟩
    · rw [same]
      exact (ih few.1 inFirst).bind _
    · rw [same]
      exact .behind (form.read_append few.1 _) ((ihs few.2 j inOthers).bind _)

/-- Reading is local. A value that is read at a place of some bytes takes a number of them. It is
read from all bytes that have the same ones there, whatever follows them, and takes as many. If the
bytes end before all of these, reading runs short; so decoding runs short on what is left of bytes
that decode to a value when some are cut from their end. -/
theorem read_local (t : Ty) (data : Bytes) (start : Nat) :
    (∀ v rest, read t (data.drop start) = (.ok v, rest) →
      ∃ n ≤ (data.drop start).length, rest = data.drop (start + n) ∧
        (∀ buffer : Bytes, (buffer.drop start).take n = (data.drop start).take n →
          read t (buffer.drop start) = (.ok v, buffer.drop (start + n))) ∧
        ∀ k < n, (read t).RunsShort ((data.take (start + k)).drop start)) ∧
    ∀ v, decodeNested t data = .ok v → ∀ k < data.length,
      ∃ owner needed available,
        decodeNested t (data.take k) = .error (.underflow owner needed available) := by
  refine ⟨fun v rest e => ?_, fun v e k cut => ?_⟩
  · obtain ⟨front, same, form, few⟩ := read_eq_ok_iff.mp e
    have taken : (data.drop start).take front.length = front := by simp [same]
    refine ⟨front.length, by simp [same], ?_, fun buffer agrees => ?_, fun k cut => ?_⟩
    · rw [← List.drop_drop, same, List.drop_left]
    · have split := List.take_append_drop front.length (buffer.drop start)
      rw [agrees, taken, List.drop_drop] at split
      rw [← split]
      exact form.read_append few _
    · have kept : (data.take (start + k)).drop start = front.take k := by
        rw [List.drop_take, Nat.add_sub_cancel_left, same, List.take_append_of_le_length cut.le]
      rw [kept]
      exact form.runsShort few cut
  · obtain ⟨form, few⟩ := decodeNested_iff_isForm.mp e
    obtain ⟨owner, needed, available, rest, failed⟩ := form.runsShort few cut
    refine ⟨owner, needed, available, ?_⟩
    rw [decodeNested, failed]

/-- Two truth values, read behind one byte and before another one. -/
theorem read_local_two_items :
    let t : Ty := .list (.primitive .bool)
    let data : Bytes := [9, 0, 0, 0, 2, 1, 0, 7]
    let v : Value := .list (.primitive .bool) [.bool true, .bool false]
    read t (data.drop 1) = (.ok v, [7]) ∧
      read t (([4, 0, 0, 0, 2, 1, 0] : Bytes).drop 1) = (.ok v, []) ∧
      (read t).RunsShort [0, 0, 0, 2, 1] ∧
      ∃ owner needed available,
        decodeNested t [0, 0, 0, 2, 1] = .error (.underflow owner needed available) := by
  intro t data v
  have decoded : decodeNested t [0, 0, 0, 2, 1, 0] = .ok v := by cbv
  obtain ⟨form, few⟩ := decodeNested_iff_isForm.mp decoded
  have first : read t (data.drop 1) = (.ok v, [7]) := form.read_append few [7]
  obtain ⟨n, -, rest, same, short⟩ := (read_local t data 1).1 v [7] first
  have six : n = 6 := by
    have size := congrArg List.length rest
    simp [data] at size
    omega
  subst six
  have ends := (read_local t [0, 0, 0, 2, 1, 0] 0).2 v decoded 5 (by decide)
  exact ⟨first, same _ rfl, short 5 (by omega), ends⟩

end Value

end ContractCalls
