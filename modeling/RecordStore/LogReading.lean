import RecordStore.LogFragments
import RecordStore.PrefixCode

namespace RecordStore.LogReading

open RecordStore.CFile RecordStore.Outcome RecordStore.Coding RecordStore.PrefixCode RecordStore.LogFormat
  RecordStore.LogFragments

section Fragments

/-- A reader of everything, in front of `rest` and behind `offset` bytes of the block in its buffer. -/
structure At (offset : Nat) (rest : List Byte) (r : Reader) : Prop where
  offset_le : offset ≤ blockSize
  buffer : r.buffer = rest.take (blockSize - offset)
  file : r.file = rest.drop (blockSize - offset)
  whole : r.eof = false → blockSize - offset ≤ rest.length
  ended : r.eof = true → rest.length ≤ blockSize - offset
  initial : r.initialOffset = 0

theorem At.length {offset : Nat} {rest : List Byte} {r : Reader} (h : At offset rest r) :
    r.file.length + r.buffer.length = rest.length := by
  rw [h.buffer, h.file, List.length_take, List.length_drop]
  omega

theorem At.new (file : List Byte) (checksum : Bool) : At blockSize file (Reader.new file checksum 0) where
  offset_le := le_rfl
  buffer := by rw [Nat.sub_self, List.take_zero]; rfl
  file := by rw [Nat.sub_self, List.drop_zero]; rfl
  whole _ := by rw [Nat.sub_self]; exact Nat.zero_le _
  ended h := by cases h
  initial := rfl

theorem At.loaded {offset : Nat} {rest : List Byte} {r : Reader} (h : At offset rest r) (heof : r.eof = false) :
    At 0 (rest.drop (blockSize - offset)) (readBlock r) := by
  have hgot : (readBlock r).eof = true ↔ (rest.drop (blockSize - offset)).length < blockSize := by
    obtain ⟨left, hleft⟩ : ∃ left, rest.drop (blockSize - offset) = left := ⟨_, rfl⟩
    simp only [readBlock, h.file, hleft, heof, List.length_take]
    split <;> simp <;> omega
  refine ⟨Nat.zero_le _, ?_, ?_, fun he => ?_, fun he => ?_, h.initial⟩
  · rw [readBlock, h.file]
    rfl
  · rw [readBlock, h.file]
    rfl
  · rw [← Bool.not_eq_true, hgot] at he
    exact Nat.not_lt.mp he
  · exact (hgot.mp he).le

@[simp] theorem readBlock_reports (r : Reader) : (readBlock r).reports = r.reports := rfl

@[simp] theorem readBlock_checksum (r : Reader) : (readBlock r).checksum = r.checksum := rfl

theorem code_eq (t : RecordType) : charToUnsigned t.code = t.code.toNat := by
  cases t <;> rfl

theorem lengthBytes {n : Nat} (h : n ≤ 0xffff) :
    (BitVec.ofNat 8 (n &&& 0xff)).toNat ||| ((BitVec.ofNat 8 (n >>> 8)).toNat <<< 8) = n := by
  have hand : n &&& 0xff = n % 256 := Nat.and_two_pow_sub_one_eq_mod n 8
  have hlow : n % 256 < 2 ^ 8 := Nat.mod_lt n (by decide)
  rw [BitVec.toNat_ofNat, BitVec.toNat_ofNat, hand, Nat.shiftRight_eq_div_pow, Nat.mod_eq_of_lt hlow,
    Nat.mod_eq_of_lt (show n / 2 ^ 8 < 2 ^ 8 by omega), Nat.or_comm, ← Nat.shiftLeft_add_eq_or_of_lt hlow,
    Nat.shiftLeft_eq]
  omega

theorem header_eq (t : RecordType) (data : List Byte) :
    ∃ c0 c1 c2 c3, encodeFixed32 (fragmentCrc t data).toNat = [c0, c1, c2, c3] ∧
      header t data = [c0, c1, c2, c3, BitVec.ofNat 8 (data.length &&& 0xff), BitVec.ofNat 8 (data.length >>> 8),
        t.code] := ⟨_, _, _, _, rfl, rfl⟩

theorem crc_eq (t : RecordType) (data rest : List Byte) :
    Crc32c.unmask (BitVec.ofNat 32 (decodeFixed32 (header t data ++ rest))) = Crc32c.value 0 (t.code :: data) := by
  rw [header, List.append_assoc, decodeFixed32_encodeFixed32 (fragmentCrc t data).isLt, BitVec.ofNat_toNat,
    BitVec.setWidth_eq, fragmentCrc, Crc32c.unmask_mask, Crc32c.value, Crc32c.value, Crc32c.extend_append 0 0 0]
  rfl

theorem parse_intact {r : Reader} {t : RecordType} {data tail : List Byte}
    (hbuf : r.buffer = header t data ++ (data ++ tail)) (ht : t ≠ .zero) (hlen : data.length ≤ 0xffff)
    (hinit : r.initialOffset = 0) : parseFragment r = (t.code.toNat, data, { r with buffer := tail }) := by
  have hcrc := crc_eq t data (data ++ tail)
  obtain ⟨c0, c1, c2, c3, -, hheader⟩ := header_eq t data
  rw [← hbuf] at hcrc
  rw [hheader] at hbuf
  have htype : charToUnsigned (r.buffer.getD 6 0) = t.code.toNat := by
    rw [hbuf]
    exact code_eq t
  have hlength : (r.buffer.getD 4 0).toNat ||| ((r.buffer.getD 5 0).toNat <<< 8) = data.length := by
    rw [hbuf]
    exact lengthBytes hlen
  have hroom : headerSize + data.length ≤ r.buffer.length := by
    rw [hbuf, List.length_append, List.length_append]
    exact Nat.add_le_add_left (Nat.le_add_right ..) 7
  have hzero : ¬ (t.code.toNat = 0 ∧ data.length = 0) := by
    rintro ⟨h, -⟩
    cases t
    · exact ht rfl
    all_goals cases h
  have htake : (r.buffer.drop 6).take (1 + data.length) = t.code :: data := by
    rw [hbuf, Nat.add_comm]
    show t.code :: (data ++ tail).take data.length = _
    rw [List.take_left' rfl]
  have hdata : (r.buffer.drop headerSize).take data.length = data := by
    rw [hbuf]
    exact List.take_left' rfl
  have hrest : r.buffer.drop (headerSize + data.length) = tail := by
    rw [hbuf, ← List.drop_drop]
    exact List.drop_left' rfl
  unfold parseFragment
  simp only [htype, hlength]
  rw [if_neg (Nat.not_lt.mpr hroom), if_neg hzero, if_neg (by rw [htake, hcrc]; exact fun h => h.2 rfl), hinit,
    if_neg (Nat.not_lt_zero _), hdata, hrest]

theorem reach_header {offset : Nat} {f : Fragment} (hf : Fits offset f) {rest : List Byte} {r : Reader}
    (hr : At offset (List.replicate f.pad 0 ++ rest) r) (hrest : rest ≠ []) :
    ∃ r' fuel, At (headerOffset offset) rest r' ∧ r'.reports = r.reports ∧
      readPhysicalRecord r = readPhysicalRecordLoop (fuel + 1) r' := by
  have hpad := hf.pad
  by_cases hlow : blockSize - offset < headerSize
  · rw [if_pos hlow] at hpad
    have hpos := List.length_pos_iff.mpr hrest
    have hzeros : (List.replicate f.pad (0 : Byte)).length = blockSize - offset := by
      rw [List.length_replicate, hpad]
    have heof : r.eof = false := by
      by_contra he
      have hended := hr.ended (Bool.not_eq_false _ ▸ he)
      rw [List.length_append, hzeros] at hended
      omega
    have hnext := hr.loaded heof
    rw [List.drop_left' hzeros] at hnext
    refine ⟨readBlock r, 1, ?_, rfl, ?_⟩
    · rw [headerOffset, if_pos hlow]
      exact hnext
    · have hshort : r.buffer.length < headerSize := by
        rw [hr.buffer, List.length_take]
        omega
      rw [readPhysicalRecord, readPhysicalRecordLoop, if_pos hshort, if_pos heof]
  · rw [if_neg hlow] at hpad
    rw [hpad] at hr
    rw [headerOffset, if_neg hlow]
    exact ⟨r, 2, hr, rfl, rfl⟩

theorem readPhysicalRecord_complete {offset : Nat} {f : Fragment} (hf : Fits offset f) (ht : f.type ≠ .zero)
    {rest : List Byte} {r : Reader} (hr : At offset (f.bytes ++ rest) r) :
    ∃ r', readPhysicalRecord r = .ok (f.type.code.toNat, f.data, r') ∧ r'.reports = r.reports ∧
      At (headerOffset offset + headerSize + f.data.length) rest r' := by
  have hbytes : f.bytes ++ rest = List.replicate f.pad 0 ++ (header f.type f.data ++ (f.data ++ rest)) := by
    rw [Fragment.bytes, List.append_assoc, List.append_assoc]
  have hheader := header_length f.type f.data
  rw [hbytes] at hr
  obtain ⟨r', fuel, hr', hreports, hread⟩ := reach_header hf hr (by
    rw [← List.length_pos_iff, List.length_append, hheader]
    exact Nat.lt_of_lt_of_le (by decide) (Nat.le_add_right ..))
  have hroom := hf.room
  obtain ⟨left, hleft⟩ : ∃ left, blockSize - headerOffset offset = headerSize + (f.data.length + left) :=
    ⟨_, (Nat.add_sub_cancel' (show headerSize + f.data.length ≤ blockSize - headerOffset offset by omega)).symm.trans
      (Nat.add_assoc ..)⟩
  have hbuffer : r'.buffer = header f.type f.data ++ (f.data ++ rest.take left) := by
    rw [hr'.buffer, hleft, ← hheader, List.take_length_add_append, List.take_length_add_append]
  have hfile : r'.file = rest.drop left := by
    rw [hr'.file, hleft, ← hheader, List.drop_length_add_append, List.drop_length_add_append]
  have hlong : ¬ r'.buffer.length < headerSize := by
    rw [hbuffer, List.length_append, hheader]
    exact Nat.not_lt.mpr (Nat.le_add_right ..)
  have hleft' : blockSize - (headerOffset offset + headerSize + f.data.length) = left := by omega
  have hlen : (header f.type f.data ++ (f.data ++ rest)).length = headerSize + (f.data.length + rest.length) := by
    rw [List.length_append, List.length_append, hheader]
  refine ⟨{ r' with buffer := rest.take left }, ?_, hreports, hf.room, ?_, ?_, fun he => ?_, fun he => ?_, hr'.initial⟩
  · rw [hread, readPhysicalRecordLoop, if_neg hlong, parse_intact hbuffer ht hf.data_le hr'.initial]
  · rw [hleft']
  · rw [hleft']
    exact hfile
  · have hwhole := hr'.whole he
    rw [hlen] at hwhole
    omega
  · have hended := hr'.ended he
    rw [hlen] at hended
    omega

structure Ended (r : Reader) : Prop where
  buffer : r.buffer = []
  file : r.file = []
  eof : r.eof = true

theorem Ended.read {r : Reader} (hr : Ended r) (fuel : Nat) : readPhysicalRecordLoop (fuel + 1) r = .ok (kEof, [], r) := by
  rw [readPhysicalRecordLoop, hr.buffer, if_pos (by decide), if_neg (by rw [hr.eof]; decide)]
  exact if_pos rfl

theorem At.ended_of_nil {offset : Nat} {r : Reader} (hr : At offset [] r) (heof : r.eof = true) : Ended r :=
  ⟨hr.buffer.trans List.take_nil, hr.file.trans List.drop_nil, heof⟩

theorem readPhysicalRecord_nil {offset : Nat} {r : Reader} (hr : At offset [] r) :
    ∃ r', readPhysicalRecord r = .ok (kEof, [], r') ∧ r'.reports = r.reports := by
  have hbuffer : r.buffer = [] := hr.buffer.trans List.take_nil
  cases heof : r.eof with
  | true => exact ⟨r, (hr.ended_of_nil heof).read 2, rfl⟩
  | false =>
    have hnext := hr.loaded heof
    rw [List.drop_nil] at hnext
    have hended : (readBlock r).eof = true := by
      by_contra he
      have hwhole := hnext.whole (Bool.not_eq_true _ ▸ he)
      exact absurd hwhole (by decide)
    refine ⟨readBlock r, ?_, rfl⟩
    rw [readPhysicalRecord, readPhysicalRecordLoop, hbuffer, if_pos (by decide), if_pos heof]
    exact (hnext.ended_of_nil hended).read 1

theorem readLoop_short {r : Reader} (hshort : r.buffer.length < headerSize) (heof : r.eof = true) (fuel : Nat) :
    ∃ r', readPhysicalRecordLoop (fuel + 1) r = .ok (kEof, [], r') := by
  rw [readPhysicalRecordLoop, if_pos hshort, if_neg (by rw [heof]; decide)]
  split
  · exact ⟨_, rfl⟩
  · exact ⟨_, rfl⟩

@[simp] theorem reportCorruption_buffer (r : Reader) (bytes : Nat) (reason : String) :
    (reportCorruption r bytes reason).buffer = r.buffer := by
  unfold reportCorruption
  split <;> rfl

@[simp] theorem reportCorruption_file (r : Reader) (bytes : Nat) (reason : String) :
    (reportCorruption r bytes reason).file = r.file := by
  unfold reportCorruption
  split <;> rfl

@[simp] theorem reportCorruption_eof (r : Reader) (bytes : Nat) (reason : String) :
    (reportCorruption r bytes reason).eof = r.eof := by
  unfold reportCorruption
  split <;> rfl

theorem parse_cut {r : Reader} {t : RecordType} {data part : List Byte} (hbuf : r.buffer = header t data ++ part)
    (hpart : part.length < data.length) (hlen : data.length ≤ 0xffff) :
    parseFragment r =
      (kBadRecord, [], reportCorruption { r with buffer := [] } r.buffer.length "bad record length") := by
  have hshort : r.buffer.length < headerSize + data.length := by
    rw [hbuf, List.length_append, header_length]
    exact Nat.add_lt_add_left hpart _
  obtain ⟨c0, c1, c2, c3, -, hheader⟩ := header_eq t data
  rw [hheader] at hbuf
  have hlength : (r.buffer.getD 4 0).toNat ||| ((r.buffer.getD 5 0).toNat <<< 8) = data.length := by
    rw [hbuf]
    exact lengthBytes hlen
  unfold parseFragment
  simp only [hlength]
  rw [if_pos hshort]

theorem readLoop_cut {offset : Nat} {t : RecordType} {data text : List Byte}
    (hroom : offset + headerSize + data.length ≤ blockSize) (htext : text <+: header t data ++ data)
    (hne : text ≠ header t data ++ data) {r : Reader} (hr : At offset text r) (fuel : Nat) :
    ∃ r', readPhysicalRecordLoop (fuel + 1) r = .ok (kEof, [], r') ∨
      (readPhysicalRecordLoop (fuel + 1) r = .ok (kBadRecord, [], r') ∧ Ended r') := by
  have hshorter : text.length < headerSize + data.length := by
    rw [← header_length t data, ← List.length_append]
    exact lt_of_le_of_ne htext.length_le fun h => hne (htext.eq_of_length h)
  have heof : r.eof = true := by
    by_contra he
    have hwhole := hr.whole (Bool.not_eq_true _ ▸ he)
    omega
  have hbuffer : r.buffer = text := by
    rw [hr.buffer]
    exact List.take_of_length_le (hr.ended heof)
  have hfile : r.file = [] := by
    rw [hr.file]
    exact List.drop_of_length_le (hr.ended heof)
  by_cases hhead : r.buffer.length < headerSize
  · obtain ⟨r', hread⟩ := readLoop_short hhead heof fuel
    exact ⟨r', .inl hread⟩
  · obtain ⟨hpre, hne'⟩ | ⟨part, rfl, hpart⟩ := prefix_append_cases htext
    · have hle := lt_of_le_of_ne hpre.length_le fun h => hne' (hpre.eq_of_length h)
      rw [header_length, ← hbuffer] at hle
      exact absurd hle hhead
    · have hpart' : part.length < data.length := by
        rw [List.length_append, header_length] at hshorter
        omega
      refine ⟨reportCorruption { r with buffer := [] } r.buffer.length "bad record length", .inr ⟨?_, ?_⟩⟩
      · rw [readPhysicalRecordLoop, if_neg hhead, parse_cut hbuffer hpart' (by
          unfold blockSize headerSize at hroom
          omega)]
      · exact ⟨reportCorruption_buffer .., (reportCorruption_file ..).trans hfile,
          (reportCorruption_eof ..).trans heof⟩

theorem readPhysicalRecord_cut {offset : Nat} {f : Fragment} (hf : Fits offset f) {text : List Byte}
    (htext : text <+: f.bytes) (hne : text ≠ f.bytes) {r : Reader} (hr : At offset text r) :
    ∃ r', readPhysicalRecord r = .ok (kEof, [], r') ∨ (readPhysicalRecord r = .ok (kBadRecord, [], r') ∧ Ended r') := by
  have hpad := hf.pad
  obtain ⟨hpre, hne'⟩ | ⟨rest, rfl, hrest⟩ := prefix_append_cases htext
  · -- inside of the zeros before it: the buffer holds what is left
    have hlt := lt_of_le_of_ne hpre.length_le fun h => hne' (hpre.eq_of_length h)
    rw [List.length_replicate] at hlt
    have hlow : blockSize - offset < headerSize := by
      by_contra h
      rw [if_neg h] at hpad
      omega
    rw [if_pos hlow] at hpad
    have heof : r.eof = true := by
      by_contra he
      have hwhole := hr.whole (Bool.not_eq_true _ ▸ he)
      omega
    have hshort : r.buffer.length < headerSize := by
      rw [hr.buffer, List.length_take]
      omega
    obtain ⟨r', hread⟩ := readLoop_short hshort heof 2
    exact ⟨r', .inl hread⟩
  · have hne' : rest ≠ header f.type f.data ++ f.data := fun h => hne (by rw [h, Fragment.bytes])
    by_cases hnil : rest = []
    · -- right behind the zeros
      subst hnil
      rw [List.append_nil] at hr
      have hshort : r.buffer.length < headerSize := by
        rw [hr.buffer, List.length_take, List.length_replicate, hpad]
        split
        · omega
        · exact Nat.lt_of_le_of_lt (Nat.min_le_right ..) (by decide)
      cases heof : r.eof with
      | true =>
        obtain ⟨r', hread⟩ := readLoop_short hshort heof 2
        exact ⟨r', .inl hread⟩
      | false =>
        have hwhole := hr.whole heof
        rw [List.length_replicate, hpad] at hwhole
        have hzeros : (List.replicate f.pad (0 : Byte)).length ≤ blockSize - offset := by
          rw [List.length_replicate, hpad]
          split <;> omega
        have hnext := hr.loaded heof
        rw [List.drop_of_length_le hzeros] at hnext
        have hended : (readBlock r).eof = true := by
          by_contra he
          exact absurd (hnext.whole (Bool.not_eq_true _ ▸ he)) (by decide)
        refine ⟨readBlock r, .inl ?_⟩
        rw [readPhysicalRecord, readPhysicalRecordLoop, if_pos hshort, if_pos heof]
        exact (hnext.ended_of_nil hended).read 1
    · obtain ⟨r', fuel, hr', -, hread⟩ := reach_header hf hr hnil
      rw [hread]
      exact readLoop_cut hf.room hrest hne' hr' fuel

end Fragments

section Records

theorem fragmentType_ne_zero (begins ends : Bool) : fragmentType begins ends ≠ .zero := by
  cases begins <;> cases ends <;> decide

theorem fragmentType_code (begins ends : Bool) : (fragmentType begins ends).code.toNat =
    if begins then (if ends then 1 else 2) else (if ends then 4 else 3) := by
  cases begins <;> cases ends <;> rfl

theorem reportPartial_of_not {s : Assembly} (hs : s.inFragmentedRecord = false) (r : Reader) (reason : String) :
    reportPartial r s reason = r := by
  rw [reportPartial, if_neg]
  rw [hs]
  exact fun h => Bool.false_ne_true h.1

theorem readRecordLoop_fragment {r r' : Reader} {begins ends : Bool} {data : List Byte} {s : Assembly}
    (hread : readPhysicalRecord r = .ok ((fragmentType begins ends).code.toNat, data, r'))
    (hs : s.inFragmentedRecord = !begins) (hscratch : begins = true → s.scratch = []) (fuel : Nat) :
    ∃ last offset, readRecordLoop (fuel + 1) r s =
      if ends then .ok (some (s.scratch ++ data), { r' with lastRecordOffset := last })
      else readRecordLoop fuel r' ⟨true, s.scratch ++ data, offset⟩ := by
  rw [readRecordLoop, hread, ok_bind]
  obtain ⟨here, hhere⟩ : ∃ o, sub64 r.endOfBufferOffset r.buffer.length = o := ⟨_, rfl⟩
  rw [fragmentType_code, hhere]
  refine ⟨if begins then here else s.prospectiveRecordOffset, if begins then here else s.prospectiveRecordOffset, ?_⟩
  cases begins <;> cases ends
  · simp [hs]
  · simp [hs]
  · simp [reportPartial_of_not hs, hscratch rfl]
  · simp [reportPartial_of_not hs, hscratch rfl]

theorem At.setLast {offset : Nat} {rest : List Byte} {r : Reader} (hr : At offset rest r) (last : Nat) :
    At offset rest { r with lastRecordOffset := last } :=
  ⟨hr.offset_le, hr.buffer, hr.file, hr.whole, hr.ended, hr.initial⟩

theorem text_length {offset offset' : Nat} {fs : List Fragment} (h : Placed offset fs offset') :
    fs.length ≤ (text fs).length := by
  induction h with
  | nil => exact le_rfl
  | cons _ _ ih =>
    rw [text_cons, List.length_append, Fragment.bytes_length, List.length_cons, headerSize]
    omega

theorem readRecordLoop_complete {begins : Bool} {fs : List Fragment} (hc : Chain begins fs) {offset offset' : Nat}
    (hp : Placed offset fs offset') {rest : List Byte} {r : Reader} (hr : At offset (text fs ++ rest) r)
    {s : Assembly} (hs : s.inFragmentedRecord = !begins) (hscratch : begins = true → s.scratch = []) {fuel : Nat}
    (hfuel : fs.length ≤ fuel) :
    ∃ r', readRecordLoop fuel r s = .ok (some (s.scratch ++ payload fs), r') ∧ r'.reports = r.reports ∧
      At offset' rest r' := by
  induction hc generalizing offset r s fuel with
  | @last begins f htype =>
    obtain _ | ⟨hf, hrest⟩ := hp
    cases hrest
    obtain ⟨fuel, rfl⟩ := Nat.exists_eq_succ_of_ne_zero (show fuel ≠ 0 by rintro rfl; cases hfuel)
    have hbytes : text [f] ++ rest = f.bytes ++ rest := by
      rw [text_cons]
      exact congrArg (· ++ rest) (List.append_nil _)
    rw [hbytes] at hr
    obtain ⟨r', hread, hreports, hr'⟩ :=
      readPhysicalRecord_complete hf (htype ▸ fragmentType_ne_zero begins true) hr
    rw [htype] at hread
    obtain ⟨last, o, hround⟩ := readRecordLoop_fragment hread hs hscratch fuel
    refine ⟨{ r' with lastRecordOffset := last }, ?_, hreports, hr'.setLast last⟩
    rw [hround, if_pos rfl, payload_cons, show payload [] = [] from rfl, List.append_nil]
  | @more begins f fs htype _ ih =>
    obtain _ | ⟨hf, hrest⟩ := hp
    obtain ⟨fuel, rfl⟩ := Nat.exists_eq_succ_of_ne_zero (show fuel ≠ 0 by rintro rfl; cases hfuel)
    rw [text_cons, List.append_assoc] at hr
    obtain ⟨r', hread, hreports, hr'⟩ :=
      readPhysicalRecord_complete hf (htype ▸ fragmentType_ne_zero begins false) hr
    rw [htype] at hread
    obtain ⟨last, o, hround⟩ := readRecordLoop_fragment hread hs hscratch fuel
    obtain ⟨r'', hloop, hreports', hr''⟩ := ih hrest hr' (s := ⟨true, s.scratch ++ f.data, o⟩) rfl (fun h => by cases h)
      (Nat.le_of_succ_le_succ hfuel)
    refine ⟨r'', ?_, hreports'.trans hreports, hr''⟩
    rw [hround, if_neg Bool.false_ne_true, hloop, payload_cons, List.append_assoc]

theorem readRecordLoop_eof {r r' : Reader} {data : List Byte} (hread : readPhysicalRecord r = .ok (kEof, data, r'))
    (s : Assembly) (fuel : Nat) :
    ∃ r'', readRecordLoop (fuel + 1) r s = .ok (none, r'') ∧ (s.inFragmentedRecord = false → r'' = r') := by
  rw [readRecordLoop, hread, ok_bind]
  exact ⟨_, rfl, fun hs => if_neg (by rw [hs]; decide)⟩

theorem readRecordLoop_ended {r : Reader} (hr : Ended r) (s : Assembly) (fuel : Nat) :
    ∃ r', readRecordLoop (fuel + 1) r s = .ok (none, r') :=
  (readRecordLoop_eof (hr.read 2) s fuel).imp fun _ h => h.1

theorem readRecordLoop_bad {r r' : Reader} {data : List Byte} (hread : readPhysicalRecord r = .ok (kBadRecord, data, r'))
    (hr' : Ended r') (s : Assembly) (fuel : Nat) : ∃ r'', readRecordLoop (fuel + 2) r s = .ok (none, r'') := by
  rw [readRecordLoop, hread, ok_bind]
  cases hs : s.inFragmentedRecord with
  | true =>
    have hended : Ended (reportCorruption r' s.scratch.length "error in middle of record") :=
      ⟨(reportCorruption_buffer ..).trans hr'.buffer, (reportCorruption_file ..).trans hr'.file,
        (reportCorruption_eof ..).trans hr'.eof⟩
    exact readRecordLoop_ended hended ⟨false, [], s.prospectiveRecordOffset⟩ fuel
  | false => exact readRecordLoop_ended hr' s fuel

/-- A record that is cut short is not read, nor is a part of it. -/
theorem readRecordLoop_cut {begins : Bool} {fs : List Fragment} (hc : Chain begins fs) {offset offset' : Nat}
    (hp : Placed offset fs offset') {t : List Byte} (ht : t <+: text fs) (hne : t ≠ text fs) {r : Reader}
    (hr : At offset t r) {s : Assembly} (hs : s.inFragmentedRecord = !begins) (hscratch : begins = true → s.scratch = [])
    {fuel : Nat} (hfuel : t.length + 2 ≤ fuel) : ∃ r', readRecordLoop fuel r s = .ok (none, r') := by
  induction hc generalizing offset t r s fuel with
  | @last begins f htype =>
    obtain _ | ⟨hf, -⟩ := hp
    have hbytes : text [f] = f.bytes := List.append_nil _
    rw [hbytes] at ht hne
    obtain ⟨fuel, rfl⟩ := Nat.exists_eq_add_of_le' (show 2 ≤ fuel by omega)
    obtain ⟨r', hread | ⟨hread, hended⟩⟩ := readPhysicalRecord_cut hf ht hne hr
    · exact (readRecordLoop_eof hread s _).imp fun _ h => h.1
    · exact readRecordLoop_bad hread hended s fuel
  | @more begins f fs htype _ ih =>
    obtain _ | ⟨hf, hrest⟩ := hp
    obtain ⟨fuel, rfl⟩ := Nat.exists_eq_add_of_le' (show 2 ≤ fuel by omega)
    obtain ⟨ht', hne'⟩ | ⟨t', rfl, ht'⟩ := prefix_append_cases ht
    · obtain ⟨r', hread | ⟨hread, hended⟩⟩ := readPhysicalRecord_cut hf ht' hne' hr
      · exact (readRecordLoop_eof hread s _).imp fun _ h => h.1
      · exact readRecordLoop_bad hread hended s fuel
    · obtain ⟨r', hread, -, hr'⟩ := readPhysicalRecord_complete hf (htype ▸ fragmentType_ne_zero begins false) hr
      rw [htype] at hread
      obtain ⟨last, o, hround⟩ := readRecordLoop_fragment hread hs hscratch (fuel + 1)
      rw [hround, if_neg Bool.false_ne_true]
      have hlen := Fragment.bytes_length f
      unfold headerSize at hlen
      rw [List.length_append] at hfuel
      exact ih hrest ht' (fun h => hne (by rw [h, text_cons])) hr' (s := ⟨true, s.scratch ++ f.data, o⟩) rfl
        (fun h => by cases h) (by omega)

theorem readRecord_eq {r : Reader} (hinit : r.initialOffset = 0) :
    readRecord r = readRecordLoop (r.file.length + r.buffer.length + 2) r ⟨false, [], 0⟩ := by
  rw [readRecord, hinit]
  rfl

theorem addRecords_dest {slices : List (List Byte)} {w w' : Writer} (hw : w.blockOffset ≤ blockSize)
    (h : addRecords w slices = .ok w') : w.dest <+: w'.dest := by
  induction slices generalizing w with
  | nil =>
    cases h
    exact List.prefix_rfl
  | cons slice slices ih =>
    obtain ⟨fs, offset', hadd, hplaced, -, -⟩ := addRecord_spec hw slice
    rw [addRecords, hadd, ok_bind] at h
    exact (List.prefix_append ..).trans (ih (hplaced.offset_le hw) h)

theorem addRecords_total (slices : List (List Byte)) {w : Writer} (hw : w.blockOffset ≤ blockSize) :
    ∃ w', addRecords w slices = .ok w' ∧ w'.blockOffset ≤ blockSize := by
  induction slices generalizing w with
  | nil => exact ⟨w, rfl, hw⟩
  | cons slice slices ih =>
    obtain ⟨fs, offset', hadd, hplaced, -, -⟩ := addRecord_spec hw slice
    obtain ⟨w', hw', hle⟩ := ih (w := ⟨w.dest ++ text fs, offset'⟩) (hplaced.offset_le hw)
    exact ⟨w', by rw [addRecords, hadd, ok_bind, hw'], hle⟩

/-- A writer at the beginning of a block and a reader at the end of one are at the same place. -/
theorem placed_ofZero {fs : List Fragment} {offset' : Nat} (h : Placed 0 fs offset') (hne : fs ≠ []) :
    Placed blockSize fs offset' := by
  obtain _ | ⟨hf, hrest⟩ := h
  · exact absurd rfl hne
  · exact .cons ⟨le_rfl, hf.pad, hf.room⟩ hrest

theorem chain_ne_nil {begins : Bool} {fs : List Fragment} (h : Chain begins fs) : fs ≠ [] := by
  cases h <;> exact List.cons_ne_nil _ _

theorem readRecords_spec {slices : List (List Byte)} {w w' : Writer} (hw : w.blockOffset ≤ blockSize)
    (hadd : addRecords w slices = .ok w') {offset n : Nat} {log : List Byte} (hlog : w'.dest = w.dest ++ log)
    (hoffset : offset = w.blockOffset ∨ (w.blockOffset = 0 ∧ offset = blockSize)) {r : Reader}
    (hr : At offset (log.take n) r) :
    ∃ k r', readRecords (slices.length + 1) r = .ok (slices.take k, r') ∧
      (log.length ≤ n → r'.reports = r.reports) ∧
      ∀ j ≤ slices.length, ∀ wj, addRecords w (slices.take j) = .ok wj →
        (j ≤ k ↔ wj.dest.length ≤ w.dest.length + n) := by
  induction slices generalizing w offset n log r with
  | nil =>
    cases hadd
    obtain rfl := List.self_eq_append_right.mp hlog
    rw [List.take_nil] at hr
    obtain ⟨r', hread, hreports⟩ := readPhysicalRecord_nil hr
    obtain ⟨r'', hloop, hr''⟩ := readRecordLoop_eof hread ⟨false, [], 0⟩ (r.file.length + r.buffer.length + 1)
    refine ⟨0, r'', ?_, fun _ => hr'' rfl ▸ hreports, fun j hj wj hwj => ?_⟩
    · rw [readRecords, readRecord_eq hr.initial, hloop, ok_bind]
      rfl
    · rw [List.take_nil] at hwj
      cases hwj
      exact ⟨fun _ => Nat.le_add_right .., fun _ => hj⟩
  | cons slice slices ih =>
    obtain ⟨fs, offset', haddRecord, hplaced, hchain, hpayload⟩ := addRecord_spec hw slice
    have hround (slices' : List (List Byte)) :
        addRecords w (slice :: slices') = addRecords ⟨w.dest ++ text fs, offset'⟩ slices' := by
      rw [addRecords, haddRecord, ok_bind]
    rw [hround] at hadd
    obtain ⟨log', hlog'⟩ := addRecords_dest (hplaced.offset_le hw) hadd
    have hsplit : log = text fs ++ log' := by
      rw [hlog, List.append_assoc] at hlog'
      exact (List.append_cancel_left hlog').symm
    have hplaced' : Placed offset fs offset' := by
      obtain rfl | ⟨hzero, rfl⟩ := hoffset
      · exact hplaced
      · rw [hzero] at hplaced
        exact placed_ofZero hplaced (chain_ne_nil hchain)
    by_cases hn : (text fs).length ≤ n
    · -- the record is there, and so are its bytes
      obtain ⟨n, rfl⟩ := Nat.exists_eq_add_of_le hn
      rw [hsplit, List.take_length_add_append] at hr
      obtain ⟨r1, hread, hreports, hr1⟩ := readRecordLoop_complete hchain hplaced' hr (s := ⟨false, [], 0⟩) rfl
        (fun _ => rfl) (show fs.length ≤ r.file.length + r.buffer.length + 2 by
          have hlen := text_length hplaced
          have hsum := hr.length
          rw [List.length_append] at hsum
          omega)
      obtain ⟨k, r', hrest, hreports', hk⟩ := ih (hplaced.offset_le hw) hadd hlog'.symm (.inl rfl) hr1
      refine ⟨k + 1, r', ?_, fun hle => ?_, fun j hj wj hwj => ?_⟩
      · rw [List.length_cons, readRecords, readRecord_eq hr.initial, hread, ok_bind]
        simp only [hrest, ok_bind, List.nil_append, hpayload, List.take_succ_cons]
      · rw [hsplit, List.length_append] at hle
        exact (hreports' (Nat.le_of_add_le_add_left hle)).trans hreports
      · cases j with
        | zero =>
          cases hwj
          exact ⟨fun _ => Nat.le_add_right .., fun _ => Nat.zero_le _⟩
        | succ j =>
          rw [List.take_succ_cons, hround] at hwj
          rw [Nat.add_le_add_iff_right, hk j (Nat.le_of_succ_le_succ hj) wj hwj, List.length_append, Nat.add_assoc]
    · have hcut : (log.take n) <+: text fs ∧ log.take n ≠ text fs := by
        rw [hsplit, List.take_append_of_le_length (Nat.not_le.mp hn).le]
        refine ⟨List.take_prefix .., fun h => hn ?_⟩
        rw [← h]
        exact List.length_take_le ..
      obtain ⟨r', hread⟩ := readRecordLoop_cut hchain hplaced' hcut.1 hcut.2 hr (s := ⟨false, [], 0⟩) rfl
        (fun _ => rfl) (show _ ≤ r.file.length + r.buffer.length + 2 by rw [hr.length])
      refine ⟨0, r', ?_, fun hle => ?_, fun j hj wj hwj => ?_⟩
      · rw [List.length_cons, readRecords, readRecord_eq hr.initial, hread, ok_bind]
        rfl
      · rw [hsplit, List.length_append] at hle
        exact absurd ((Nat.le_add_right ..).trans hle) hn
      · cases j with
        | zero =>
          cases hwj
          exact ⟨fun _ => Nat.le_add_right .., fun _ => le_rfl⟩
        | succ j =>
          rw [List.take_succ_cons, hround] at hwj
          have hlong := (addRecords_dest (hplaced.offset_le hw) hwj).length_le
          rw [List.length_append] at hlong
          exact ⟨fun h => absurd h (Nat.not_succ_le_zero j), fun h => absurd h (by omega)⟩

/-- A log that ends anywhere gives back the records that are in it as a whole, in order and with no
checks skipped, and a log that is there to its end is read without a report. -/
theorem torn_log_recovers (slices : List (List Byte)) (n : Nat) (checksum : Bool) :
    ∃ w k r, addRecords Writer.new slices = .ok w ∧
      readRecords (slices.length + 1) (Reader.new (w.dest.take n) checksum 0) = .ok (slices.take k, r) ∧
      (∀ j ≤ slices.length, ∀ wj, addRecords Writer.new (slices.take j) = .ok wj → (j ≤ k ↔ wj.dest.length ≤ n)) ∧
      (w.dest.length ≤ n → r.reports = []) := by
  obtain ⟨w, hw, -⟩ := addRecords_total slices (w := Writer.new) (Nat.zero_le _)
  obtain ⟨k, r, hread, hreports, hk⟩ := readRecords_spec (Nat.zero_le _) hw
    (show w.dest = Writer.new.dest ++ w.dest from rfl) (.inr ⟨rfl, rfl⟩) (At.new (w.dest.take n) checksum)
  refine ⟨w, k, r, hw, hread, fun j hj wj hwj => ?_, hreports⟩
  rw [hk j hj wj hwj, show Writer.new.dest.length = 0 from rfl, Nat.zero_add]

end Records

end RecordStore.LogReading
