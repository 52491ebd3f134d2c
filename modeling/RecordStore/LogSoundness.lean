import RecordStore.LogReading

namespace RecordStore.LogSoundness

open RecordStore.CFile RecordStore.Outcome RecordStore.Coding RecordStore.LogFormat RecordStore.LogFragments
  RecordStore.LogReading

/-- What a reader has not looked at yet. -/
def remaining (r : Reader) : List Byte := r.buffer ++ r.file

/-- A fragment that stands in a text, with `mid` behind it. The checksum is right where it is checked. -/
def Stands (checksum : Bool) (f : Fragment) (text mid : List Byte) : Prop :=
  ∃ crc : List Byte, crc.length = 4 ∧
    (checksum = true → crc = encodeFixed32 (fragmentCrc f.type f.data).toNat) ∧
    crc ++ ((header f.type f.data).drop 4 ++ (f.data ++ mid)) <:+ text

/-- Fragments that stand in a text one after the other, with `rest` behind them. Something else may be
between them. -/
inductive Found (checksum : Bool) : List Fragment → List Byte → List Byte → Prop
  | nil {text rest : List Byte} (hrest : rest <:+ text) : Found checksum [] text rest
  | cons {f : Fragment} {fs : List Fragment} {text mid rest : List Byte} (hf : Stands checksum f text mid)
      (hfs : Found checksum fs mid rest) : Found checksum (f :: fs) text rest

theorem Stands.mono {checksum : Bool} {f : Fragment} {text text' mid : List Byte} (h : Stands checksum f text mid)
    (htext : text <:+ text') : Stands checksum f text' mid := by
  obtain ⟨crc, hlen, hcrc, hsuffix⟩ := h
  exact ⟨crc, hlen, hcrc, hsuffix.trans htext⟩

theorem Stands.suffix {checksum : Bool} {f : Fragment} {text mid : List Byte} (h : Stands checksum f text mid) :
    mid <:+ text := by
  obtain ⟨crc, -, -, hsuffix⟩ := h
  exact ((List.suffix_append ..).trans ((List.suffix_append ..).trans (List.suffix_append ..))).trans hsuffix

theorem Found.suffix {checksum : Bool} {fs : List Fragment} {text rest : List Byte} (h : Found checksum fs text rest) :
    rest <:+ text := by
  induction h with
  | nil hrest => exact hrest
  | cons hf _ ih => exact ih.trans hf.suffix

theorem Found.append {checksum : Bool} {fs gs : List Fragment} {text mid rest : List Byte}
    (h : Found checksum fs text mid) (h' : Found checksum gs mid rest) : Found checksum (fs ++ gs) text rest := by
  induction h with
  | nil hrest =>
    cases h' with
    | nil hrest' => exact .nil (hrest'.trans hrest)
    | cons hf hfs => exact .cons (hf.mono hrest) hfs
  | cons hf _ ih => exact .cons hf (ih h')

theorem mask_unmask (crc : BitVec 32) : Crc32c.mask (Crc32c.unmask crc) = crc := by
  have hrot (x : BitVec 32) : (((x >>> 17) ||| (x <<< 15)) >>> 15) ||| (((x >>> 17) ||| (x <<< 15)) <<< 17) = x := by
    apply BitVec.eq_of_getLsbD_eq
    intro i hi
    simp only [BitVec.getLsbD_or, BitVec.getLsbD_shiftLeft, BitVec.getLsbD_ushiftRight]
    have hout : x.getLsbD (17 + (15 + i)) = false := BitVec.getLsbD_of_ge x _ (by omega)
    by_cases h : i < 17
    · simp [h, hi, hout, show 15 + i < 32 by omega]
    · simp [h, hi, hout, show i - 17 < 15 by omega, Nat.add_sub_cancel' (Nat.not_lt.mp h)]
  rw [Crc32c.mask, Crc32c.unmask, hrot, BitVec.sub_add_cancel]

theorem crc_bytes {crc : List Byte} (hlen : crc.length = 4) {t : RecordType} {data : List Byte}
    (h : Crc32c.value 0 (t.code :: data) = Crc32c.unmask (BitVec.ofNat 32 (decodeFixed crc))) :
    crc = encodeFixed32 (fragmentCrc t data).toNat := by
  have hlt := decodeFixed_lt crc
  rw [hlen, show 256 ^ 4 = 2 ^ 32 by decide] at hlt
  have hfragment : fragmentCrc t data = BitVec.ofNat 32 (decodeFixed crc) := by
    rw [fragmentCrc, Crc32c.value, Crc32c.extend_append 0 0 0, List.singleton_append, ← Crc32c.value, h, mask_unmask]
  rw [hfragment, BitVec.toNat_ofNat, Nat.mod_eq_of_lt hlt, encodeFixed32, ← hlen, encodeFixed_decodeFixed]

theorem code_le (t : RecordType) : t.code.toNat ≤ 4 := by
  cases t <;> decide

theorem eq_code {b : Byte} {t : RecordType} (h : charToUnsigned b = t.code.toNat) : b = t.code := by
  have hle := code_le t
  unfold charToUnsigned at h
  split at h
  · exact BitVec.eq_of_toNat_eq h
  · omega

theorem length_bytes (lo hi : Byte) :
    BitVec.ofNat 8 ((lo.toNat ||| (hi.toNat <<< 8)) &&& 0xff) = lo ∧
      BitVec.ofNat 8 ((lo.toNat ||| (hi.toNat <<< 8)) >>> 8) = hi := by
  have hlo : lo.toNat < 2 ^ 8 := lo.isLt
  have hsum : lo.toNat ||| (hi.toNat <<< 8) = hi.toNat * 256 + lo.toNat := by
    rw [Nat.or_comm, ← Nat.shiftLeft_add_eq_or_of_lt hlo, Nat.shiftLeft_eq]
  rw [hsum]
  constructor
  · rw [show (hi.toNat * 256 + lo.toNat) &&& 0xff = (hi.toNat * 256 + lo.toNat) % 256 from
      Nat.and_two_pow_sub_one_eq_mod _ 8]
    apply BitVec.eq_of_toNat_eq
    rw [BitVec.toNat_ofNat]
    omega
  · rw [Nat.shiftRight_eq_div_pow]
    apply BitVec.eq_of_toNat_eq
    rw [BitVec.toNat_ofNat]
    have hhi := hi.isLt
    omega

theorem remaining_drop {r r' : Reader} (hbuffer : r'.buffer <:+ r.buffer) (hfile : r'.file = r.file) :
    remaining r' <:+ remaining r := by
  rw [remaining, remaining, hfile]
  exact List.suffix_append_self_iff.mpr hbuffer

@[simp] theorem remaining_reportCorruption (r : Reader) (bytes : Nat) (reason : String) :
    remaining (reportCorruption r bytes reason) = remaining r := by
  rw [remaining, reportCorruption_buffer, reportCorruption_file, remaining]

/-- What a reader keeps from the beginning. -/
def Same (r r' : Reader) : Prop := r'.checksum = r.checksum ∧ r'.initialOffset = r.initialOffset

theorem Same.trans {r r1 r2 : Reader} (h : Same r r1) (h' : Same r1 r2) : Same r r2 :=
  ⟨h'.1.trans h.1, h'.2.trans h.2⟩

theorem Same.empty (r : Reader) : Same r { r with buffer := [] } := ⟨rfl, rfl⟩

theorem Same.reportCorruption {r r1 : Reader} (h : Same r r1) (bytes : Nat) (reason : String) :
    Same r (reportCorruption r1 bytes reason) := by
  unfold LogFormat.reportCorruption
  split <;> exact h

theorem Same.reportPartial {r r1 : Reader} (h : Same r r1) (s : Assembly) (reason : String) :
    Same r (reportPartial r1 s reason) := by
  unfold LogFormat.reportPartial
  split
  · exact h.reportCorruption ..
  · exact h

/-- What the reader has in its hands after one more fragment, or after none. -/
structure Advance (r : Reader) (code : Nat) (data : List Byte) (r' : Reader) : Prop where
  same : Same r r'
  suffix : remaining r' <:+ remaining r
  moved : code = kEof ∨ (remaining r').length < (remaining r).length
  stands : ∀ t : RecordType, t ≠ .zero → code = t.code.toNat →
    Stands r.checksum ⟨0, t, data⟩ (remaining r) (remaining r')

/-- The rest of the buffer is given up. -/
theorem Advance.bad {r r' : Reader} (hsame : Same r r')
    (hbuffer : r'.buffer <:+ r.buffer) (hless : r'.buffer.length < r.buffer.length) (hfile : r'.file = r.file) :
    Advance r kBadRecord [] r' where
  same := hsame
  suffix := remaining_drop hbuffer hfile
  moved := by
    right
    rw [remaining, remaining, List.length_append, List.length_append, hfile]
    omega
  stands t _ h := by
    have hle := code_le t
    rw [← h] at hle
    exact absurd hle (by decide)

theorem exists_header {text : List Byte} (h : headerSize ≤ text.length) :
    ∃ c0 c1 c2 c3 lo hi b tail, text = c0 :: c1 :: c2 :: c3 :: lo :: hi :: b :: tail := by
  unfold headerSize at h
  match text with
  | [] | [_] | [_, _] | [_, _, _] | [_, _, _, _] | [_, _, _, _, _] | [_, _, _, _, _, _] => simp at h
  | c0 :: c1 :: c2 :: c3 :: lo :: hi :: b :: tail => exact ⟨c0, c1, c2, c3, lo, hi, b, tail, rfl⟩

theorem parse_spec {r : Reader} (hlong : headerSize ≤ r.buffer.length) :
    ∃ code data r', parseFragment r = (code, data, r') ∧ Advance r code data r' := by
  have hpos : 0 < r.buffer.length := Nat.lt_of_lt_of_le (show 0 < headerSize by decide) hlong
  obtain ⟨c0, c1, c2, c3, lo, hi, b, tail, hbuf⟩ := exists_header hlong
  have hlo : r.buffer.getD 4 0 = lo := by rw [hbuf]; rfl
  have hhi : r.buffer.getD 5 0 = hi := by rw [hbuf]; rfl
  have hb : r.buffer.getD 6 0 = b := by rw [hbuf]; rfl
  obtain ⟨hlength_lo, hlength_hi⟩ := length_bytes lo hi
  obtain ⟨n, hn⟩ : ∃ n, lo.toNat ||| (hi.toNat <<< 8) = n := ⟨_, rfl⟩
  rw [hn] at hlength_lo hlength_hi
  have hgone (bytes : Nat) (reason : String) :
      Advance r kBadRecord [] (reportCorruption { r with buffer := [] } bytes reason) := by
    refine .bad (Same.reportCorruption (Same.empty r) ..) ?_ ?_ (reportCorruption_file ..)
    · rw [reportCorruption_buffer]
      exact List.nil_suffix
    · rw [reportCorruption_buffer]
      exact hpos
  unfold parseFragment
  simp only [hlo, hhi, hb, hn]
  split
  · exact ⟨_, _, _, rfl, hgone _ _⟩
  rename_i hroom
  split
  · exact ⟨_, _, _, rfl, .bad ⟨rfl, rfl⟩ List.nil_suffix hpos rfl⟩
  split
  · exact ⟨_, _, _, rfl, hgone _ _⟩
  rename_i hsum
  have hdrop : r.buffer.drop (headerSize + n) = tail.drop n := by
    rw [← List.drop_drop, hbuf]
    rfl
  have hdata : (r.buffer.drop headerSize).take n = tail.take n := by
    rw [hbuf]
    rfl
  have hshort : (tail.drop n).length < r.buffer.length := by
    rw [hbuf, List.length_drop]
    simp only [List.length_cons]
    omega
  rw [hdrop, hdata]
  split
  · exact ⟨_, _, _, rfl, .bad ⟨rfl, rfl⟩ (hdrop ▸ List.drop_suffix ..) hshort rfl⟩
  refine ⟨_, _, _, rfl, ⟨rfl, rfl⟩, remaining_drop (hdrop ▸ List.drop_suffix ..) rfl, .inr ?_, fun t _ ht => ?_⟩
  · rw [remaining, remaining, List.length_append, List.length_append]
    exact Nat.add_lt_add_right hshort _
  · obtain rfl := eq_code ht
    have hlen : (tail.take n).length = n := by
      rw [hbuf] at hroom
      simp only [List.length_cons, headerSize] at hroom
      rw [List.length_take]
      omega
    have hheader : (header t (tail.take n)).drop 4 = [lo, hi, t.code] := by
      obtain ⟨d0, d1, d2, d3, -, hheader⟩ := header_eq t (tail.take n)
      rw [hheader, hlen, hlength_lo, hlength_hi]
      rfl
    refine ⟨[c0, c1, c2, c3], rfl, fun hc => crc_bytes rfl ?_, ?_⟩
    · by_contra hne
      refine hsum ⟨hc, fun h => hne ?_⟩
      rw [hbuf] at h
      rw [Nat.add_comm] at h
      exact h
    · rw [hheader, remaining, remaining, hbuf]
      show c0 :: c1 :: c2 :: c3 :: lo :: hi :: t.code :: (tail.take n ++ (tail.drop n ++ r.file)) <:+ _
      rw [← List.append_assoc, List.take_append_drop]
      exact List.suffix_rfl

theorem Advance.eof {r r' : Reader} (hsame : Same r r') (hsuffix : remaining r' <:+ remaining r) :
    Advance r kEof [] r' where
  same := hsame
  suffix := hsuffix
  moved := .inl rfl
  stands t _ h := by
    have hle := code_le t
    rw [← h] at hle
    exact absurd hle (by decide)

theorem Advance.behind {r r1 r' : Reader} {code : Nat} {data : List Byte} (h : Advance r1 code data r')
    (hsame : Same r r1) (hsuffix : remaining r1 <:+ remaining r) : Advance r code data r' where
  same := hsame.trans h.same
  suffix := h.suffix.trans hsuffix
  moved := h.moved.imp_right fun hlt => Nat.lt_of_lt_of_le hlt hsuffix.length_le
  stands t ht hcode := hsame.1 ▸ (h.stands t ht hcode).mono hsuffix

theorem readLoop_loaded {r : Reader} (h : headerSize ≤ r.buffer.length ∨ r.eof = true) (fuel : Nat) :
    ∃ code data r', readPhysicalRecordLoop (fuel + 1) r = .ok (code, data, r') ∧ Advance r code data r' := by
  rw [readPhysicalRecordLoop]
  by_cases hshort : r.buffer.length < headerSize
  · have heof := h.resolve_left (Nat.not_le.mpr hshort)
    rw [if_pos hshort, if_neg (by rw [heof]; decide)]
    split
    · exact ⟨_, _, _, rfl, .eof ⟨rfl, rfl⟩ List.suffix_rfl⟩
    · refine ⟨_, _, _, rfl, .eof (Same.reportCorruption (Same.empty r) ..) ?_⟩
      exact remaining_drop (by rw [reportCorruption_buffer]; exact List.nil_suffix) (reportCorruption_file ..)
  · rw [if_neg hshort]
    obtain ⟨code, data, r', hparse, hadvance⟩ := parse_spec (Nat.not_lt.mp hshort)
    exact ⟨code, data, r', by rw [hparse], hadvance⟩

theorem readPhysicalRecord_spec (r : Reader) :
    ∃ code data r', readPhysicalRecord r = .ok (code, data, r') ∧ Advance r code data r' := by
  by_cases h : headerSize ≤ r.buffer.length ∨ r.eof = true
  · exact readLoop_loaded h 2
  · obtain ⟨hshort, heof⟩ := not_or.mp h
    rw [readPhysicalRecord, readPhysicalRecordLoop, if_pos (Nat.not_le.mp hshort),
      if_pos (Bool.not_eq_true _ ▸ heof)]
    have hloaded : headerSize ≤ (readBlock r).buffer.length ∨ (readBlock r).eof = true := by
      by_cases hfull : (r.file.take blockSize).length < blockSize
      · right
        exact if_pos hfull
      · left
        exact (show headerSize ≤ blockSize by decide).trans (Nat.not_lt.mp hfull)
    obtain ⟨code, data, r', hread, hadvance⟩ := readLoop_loaded hloaded 1
    refine ⟨code, data, r', hread, hadvance.behind ⟨rfl, rfl⟩ ?_⟩
    show r.file.take blockSize ++ r.file.drop blockSize <:+ r.buffer ++ r.file
    rw [List.take_append_drop]
    exact List.suffix_append ..

/-- The fragments of a record whose last one is missing. -/
inductive Begun : List Fragment → Prop
  | first {f : Fragment} (htype : f.type = .first) : Begun [f]
  | middle {f : Fragment} {fs : List Fragment} (hfs : Begun fs) (htype : f.type = .middle) : Begun (fs ++ [f])

theorem Begun.chain {fs gs : List Fragment} (h : Begun fs) (hgs : Chain false gs) : Chain true (fs ++ gs) := by
  induction h generalizing gs with
  | first htype => exact .more htype hgs
  | middle _ htype ih =>
    rw [List.append_assoc]
    exact ih (.more htype hgs)

theorem payload_append (fs gs : List Fragment) : payload (fs ++ gs) = payload fs ++ payload gs := by
  rw [payload, List.map_append, List.flatten_append]
  rfl

theorem payload_singleton (f : Fragment) : payload [f] = f.data := List.append_nil _

/-- The fragments that the loop has put together so far. -/
def Assembled (s : Assembly) (fs : List Fragment) : Prop :=
  if s.inFragmentedRecord then Begun fs ∧ payload fs = s.scratch else fs = []

theorem assembled_begun {s : Assembly} {fs : List Fragment} (hin : s.inFragmentedRecord = true)
    (h : Assembled s fs) : Begun fs ∧ payload fs = s.scratch := by
  rwa [Assembled, if_pos hin] at h

@[simp] theorem remaining_reportPartial (r : Reader) (s : Assembly) (reason : String) :
    remaining (reportPartial r s reason) = remaining r := by
  unfold reportPartial
  split <;> simp

/-- A record that comes out of the loop is made of fragments that stand in the file. -/
structure Output (checksum : Bool) (text : List Byte) (record : List Byte) (r : Reader) : Prop where
  found : ∃ fs, Chain true fs ∧ payload fs = record ∧ Found checksum fs text (remaining r)
  moved : (remaining r).length < text.length

theorem readRecordLoop_spec (fuel : Nat) (r : Reader) {s : Assembly} {fs : List Fragment} {text : List Byte}
    (hfound : Found r.checksum fs text (remaining r)) (hs : Assembled s fs) (hfuel : (remaining r).length < fuel) :
    ∃ out r', readRecordLoop fuel r s = .ok (out, r') ∧ Same r r' ∧ remaining r' <:+ text ∧
      ∀ record, out = some record → Output r.checksum text record r' := by
  induction fuel generalizing r s fs with
  | zero => exact absurd hfuel (Nat.not_lt_zero _)
  | succ fuel ih =>
    obtain ⟨code, data, r1, hread, hadvance⟩ := readPhysicalRecord_spec r
    have hsuffix := hadvance.suffix.trans hfound.suffix
    -- what becomes of the loop when it goes on with another reader of the same bytes
    have hagain {r2 : Reader} {s2 : Assembly} {gs : List Fragment} (hcode : code ≠ kEof)
        (hsame : Same r r2) (hremaining : remaining r2 = remaining r1)
        (hgs : Found r.checksum gs text (remaining r1)) (hs2 : Assembled s2 gs) :
        ∃ out r', readRecordLoop fuel r2 s2 = .ok (out, r') ∧ Same r r' ∧ remaining r' <:+ text ∧
          ∀ record, out = some record → Output r.checksum text record r' := by
      have hless := hadvance.moved.resolve_left hcode
      rw [← hsame.1, ← hremaining] at hgs
      obtain ⟨out, r', hloop, hsame', hrest⟩ := ih r2 hgs hs2 (by rw [hremaining]; omega)
      exact ⟨out, r', hloop, hsame.trans hsame', hsame.1 ▸ hrest⟩
    have hnone : Found r.checksum [] text (remaining r1) := .nil hsuffix
    have hone {t : RecordType} (ht : t ≠ .zero) (hcode : code = t.code.toNat) :
        Found r.checksum [⟨0, t, data⟩] (remaining r) (remaining r1) :=
      .cons (hadvance.stands t ht hcode) (.nil List.suffix_rfl)
    have hless (hcode : code ≠ kEof) : (remaining r1).length < text.length :=
      Nat.lt_of_lt_of_le (hadvance.moved.resolve_left hcode) hfound.suffix.length_le
    have hfresh {t : RecordType} (ht : t ≠ .zero) (hcode : code = t.code.toNat) :
        Found r.checksum [⟨0, t, data⟩] text (remaining r1) :=
      (Found.nil hfound.suffix).append (hone ht hcode)
    rw [readRecordLoop, hread, ok_bind]
    obtain ⟨here, hhere⟩ : ∃ o, sub64 r.endOfBufferOffset r.buffer.length = o := ⟨_, rfl⟩
    simp only [hhere]
    by_cases h1 : code = 1
    · rw [if_pos h1]
      have hremaining : remaining (reportPartial r1 s "partial record without end(1)") = remaining r1 := by simp
      refine ⟨some data, _, rfl, ?_, ?_, ?_⟩
      · exact hadvance.same.reportPartial ..
      · exact hremaining ▸ hsuffix
      · rintro record ⟨⟩
        refine ⟨⟨[⟨0, .full, data⟩], .last rfl, payload_singleton _, ?_⟩, ?_⟩
        · exact hremaining ▸ hfresh (by decide) h1
        · exact hremaining ▸ hless (by rw [h1]; decide)
    rw [if_neg h1]
    by_cases h2 : code = 2
    · rw [if_pos h2]
      refine hagain (by rw [h2]; decide) (hadvance.same.reportPartial ..) (by simp)
        (hfresh (t := .first) (by decide) h2) ?_
      exact ⟨.first rfl, payload_singleton _⟩
    rw [if_neg h2]
    by_cases h3 : code = 3
    · rw [if_pos h3]
      split
      · rename_i hin
        obtain ⟨hbegun, hpayload⟩ := assembled_begun hin hs
        refine hagain (by rw [h3]; decide) hadvance.same rfl (hfound.append (hone (t := .middle) (by decide) h3)) ?_
        rw [Assembled, if_pos hin, payload_append, hpayload, payload_singleton]
        exact ⟨.middle hbegun rfl, rfl⟩
      · rename_i hin
        refine hagain (by rw [h3]; decide) (hadvance.same.reportCorruption ..) (by simp) hnone ?_
        rw [Assembled, if_neg hin]
    rw [if_neg h3]
    by_cases h4 : code = 4
    · rw [if_pos h4]
      split
      · rename_i hin
        obtain ⟨hbegun, hpayload⟩ := assembled_begun hin hs
        refine ⟨some (s.scratch ++ data), _, rfl, hadvance.same, hsuffix, ?_⟩
        rintro record ⟨⟩
        refine ⟨⟨fs ++ [⟨0, .last, data⟩], hbegun.chain (.last rfl), ?_, ?_⟩, hless (by rw [h4]; decide)⟩
        · rw [payload_append, hpayload, payload_singleton]
        · exact hfound.append (hone (t := .last) (by decide) h4)
      · rename_i hin
        refine hagain (by rw [h4]; decide) (hadvance.same.reportCorruption ..) (by simp) hnone ?_
        rw [Assembled, if_neg hin]
    rw [if_neg h4]
    by_cases h5 : code = kEof
    · rw [if_pos h5]
      refine ⟨none, _, rfl, ?_, ?_, fun record h => by cases h⟩
      · split
        · exact hadvance.same.reportCorruption ..
        · exact hadvance.same
      · split
        · simpa using hsuffix
        · exact hsuffix
    rw [if_neg h5]
    by_cases h6 : code = kBadRecord
    · rw [if_pos h6]
      split
      · exact hagain h5 (hadvance.same.reportCorruption ..) (by simp) hnone rfl
      · rename_i hin
        refine hagain h5 hadvance.same rfl hnone ?_
        rw [Assembled, if_neg hin]
    rw [if_neg h6]
    exact hagain h5 (hadvance.same.reportCorruption ..) (by simp) hnone rfl

theorem readRecords_spec (fuel : Nat) {r : Reader} (hinit : r.initialOffset = 0)
    (hfuel : (remaining r).length < fuel) :
    ∃ fss r', readRecords fuel r = .ok (List.map payload fss, r') ∧ (∀ fs ∈ fss, Chain true fs) ∧
      Found r.checksum fss.flatten (remaining r) (remaining r') := by
  induction fuel generalizing r with
  | zero => exact absurd hfuel (Nat.not_lt_zero _)
  | succ fuel ih =>
    obtain ⟨out, r1, hread, hsame, hsuffix, hout⟩ :=
      readRecordLoop_spec (r.file.length + r.buffer.length + 2) r (s := ⟨false, [], 0⟩) (.nil List.suffix_rfl) rfl
        (by rw [remaining, List.length_append]; omega)
    rw [readRecords, readRecord_eq hinit, hread, ok_bind]
    cases out with
    | none => exact ⟨[], r1, rfl, fun fs h => absurd h List.not_mem_nil, .nil hsuffix⟩
    | some record =>
      obtain ⟨⟨fs, hchain, rfl, hfound⟩, hmoved⟩ := hout record rfl
      obtain ⟨fss, r', hrest, hchains, hfounds⟩ := ih (hsame.2.trans hinit) (by omega)
      refine ⟨fs :: fss, r', ?_, ?_, ?_⟩
      · simp only [hrest, ok_bind, List.map_cons]
      · exact fun gs hgs => (List.mem_cons.mp hgs).elim (fun h => h ▸ hchain) (hchains gs)
      · rw [List.flatten_cons]
        exact hfound.append (hsame.1 ▸ hfounds)

/-- On any bytes, however damaged, reading ends, and every record that is read is made of fragments that
stand in the file in order, each behind the header the writer puts before it (its checksum, too, when
checksums are checked). -/
theorem reading_ends_and_is_sound (file : List Byte) (checksum : Bool) :
    ∃ fss r, readRecords (file.length + 1) (Reader.new file checksum 0) = .ok (List.map payload fss, r) ∧
      (∀ fs ∈ fss, Chain true fs) ∧ Found checksum fss.flatten file (remaining r) :=
  readRecords_spec (file.length + 1) rfl (Nat.lt_succ_self _)

end RecordStore.LogSoundness
