import PatternSynth.WaveFile.Writer

/-!
# Decoding sound files

Decoding gives an error or a buffer of all frames (`Decoded`): each sample is read from its own
bytes and each value of the buffer is the mean of one frame. The scale of integer samples is one,
shifted by the number of bits less one. A header may name any number of bits, also so many that the
scale does not fit into 64 bits, and these headers are the only ones for which decoding does not end
with an error or a buffer (`ofWave_eq_error_iff`).
-/

namespace PatternSynth

namespace WaveFile

variable {α β : Type} {bytes rest : List UInt8} {f : Format}

/-! ## Readers that succeed -/

theorem bind_eq_ok {x : Reader α} {g : α → Reader β} {b : β} :
    (x >>= g) bytes = .ok (b, rest) ↔
      ∃ a mid, x bytes = .ok (a, mid) ∧ g a mid = .ok (b, rest) := by
  change (x bytes >>= fun p => g p.1 p.2) = .ok (b, rest) ↔ _
  cases x bytes with
  | error fault => simp [bind, Except.bind]
  | ok p =>
    obtain ⟨a, mid⟩ := p
    simp [bind, Except.bind, and_assoc]

theorem pure_eq_ok {a b : α} :
    (pure a : Reader α) bytes = .ok (b, rest) ↔ b = a ∧ rest = bytes := by
  change Except.ok (a, bytes) = .ok (b, rest) ↔ _
  simp [eq_comm]

theorem take_eq_ok {n : Nat} {taken : List UInt8} :
    take n bytes = .ok (taken, rest) ↔
      n ≤ bytes.length ∧ taken = bytes.take n ∧ rest = bytes.drop n := by
  have hlength : (bytes.take n).length < n ↔ ¬ n ≤ bytes.length := by
    rw [List.length_take]
    omega
  simp only [take, hlength]
  by_cases hn : n ≤ bytes.length
  · simp [hn, eq_comm]
  · simp [hn]

theorem number_eq_ok {n v : Nat} : number n bytes = .ok (v, rest) ↔
    n ≤ bytes.length ∧ v = littleEndian (bytes.take n) ∧ rest = bytes.drop n := by
  rw [number, ← bind_pure_comp, bind_eq_ok]
  constructor
  · rintro ⟨taken, mid, htake, hpure⟩
    obtain ⟨hlength, rfl, rfl⟩ := take_eq_ok.1 htake
    obtain ⟨rfl, rfl⟩ := pure_eq_ok.1 hpure
    exact ⟨hlength, rfl, rfl⟩
  · rintro ⟨hlength, rfl, rfl⟩
    exact ⟨_, _, take_eq_ok.2 ⟨hlength, rfl, rfl⟩, pure_eq_ok.2 ⟨rfl, rfl⟩⟩

theorem check_eq_ok {c : Prop} [Decidable c] {reason : String} {k : Reader α}
    {k' : Unit → Reader α} {a : α} :
    (if c then k else illFormed reason >>= k') bytes = .ok (a, rest) ↔
      c ∧ k bytes = .ok (a, rest) := by
  by_cases hc : c
  · simp [hc]
  · simp only [hc, if_false, false_and, iff_false]
    exact nofun

/-! ## The search for the samples -/

theorem bind_congr_of_ok {x : Reader α} {g g' : α → Reader β}
    (h : ∀ a mid, x bytes = .ok (a, mid) → g a mid = g' a mid) :
    (x >>= g) bytes = (x >>= g') bytes := by
  change (x bytes >>= fun p => g p.1 p.2) = (x bytes >>= fun p => g' p.1 p.2)
  cases hx : x bytes with
  | error fault => rfl
  | ok p => exact h p.1 p.2 hx

/-- The reader puts no bytes back. -/
def Shrinks (r : Reader α) : Prop :=
  ∀ bytes a rest, r bytes = .ok (a, rest) → rest.length ≤ bytes.length

namespace Shrinks

theorem pure (a : α) : Shrinks (pure a : Reader α) := by
  intro bytes b rest h
  exact Nat.le_of_eq (congrArg List.length (pure_eq_ok.1 h).2)

theorem throw (fault : Fault) : Shrinks (throw fault : Reader α) := by
  intro bytes a rest h
  cases h

theorem bind {x : Reader α} {g : α → Reader β} (hx : Shrinks x) (hg : ∀ a, Shrinks (g a)) :
    Shrinks (x >>= g) := by
  intro bytes b rest h
  obtain ⟨a, mid, hfirst, hsecond⟩ := bind_eq_ok.1 h
  exact Nat.le_trans (hg a mid b rest hsecond) (hx bytes a mid hfirst)

theorem ite {c : Prop} [Decidable c] {x y : Reader α} (hx : Shrinks x) (hy : Shrinks y) :
    Shrinks (if c then x else y) := by
  split
  · exact hx
  · exact hy

theorem take (n : Nat) : Shrinks (take n) := by
  intro bytes taken rest h
  obtain ⟨-, -, rfl⟩ := take_eq_ok.1 h
  simp

theorem number (n : Nat) : Shrinks (number n) := by
  intro bytes v rest h
  obtain ⟨-, -, rfl⟩ := number_eq_ok.1 h
  simp

/-- A check comes before the rest. -/
theorem check {c : Prop} [Decidable c] {reason : String} {k : Unit → Reader α}
    (hk : Shrinks (k ())) : Shrinks (if c then k () else illFormed reason >>= k) :=
  ite hk (bind (throw _) fun _ => hk)

theorem check_not {c : Prop} [Decidable c] {reason : String} {k : Unit → Reader α}
    (hk : Shrinks (k ())) : Shrinks (if c then illFormed reason >>= k else k ()) :=
  ite (bind (throw _) fun _ => hk) hk

end Shrinks

theorem shrinks_readInteger (length : Nat) (f : Format) : Shrinks (readInteger length f) := by
  unfold readInteger
  exact .check <| .ite (.pure f) <| .bind (.take 2) fun _ => .check <|
    .ite (.bind (.take 22) fun _ => .pure f) (.pure f)

theorem shrinks_readFloat (length : Nat) (f : Format) : Shrinks (readFloat length f) := by
  unfold readFloat
  exact .check <| .ite (.bind (.number 2) fun _ => .check <| .check <| .pure _) (.check <| .pure _)

theorem shrinks_readExtended (length : Nat) (f : Format) : Shrinks (readExtended length f) := by
  unfold readExtended
  exact .check_not <| .bind (.number 2) fun _ => .check <| .bind (.number 2) fun _ =>
    .bind (.take 4) fun _ => .bind (.take 16) fun _ =>
      .ite (.pure _) (.ite (.pure _) (.throw _))

theorem shrinks_readFormat (length : Nat) : Shrinks (readFormat length) := by
  unfold readFormat
  refine .check_not <| .bind (.number 2) fun tag => .bind (.number 2) fun channels =>
    .bind (.number 4) fun rate => .bind (.number 4) fun _ => .bind (.number 2) fun align =>
    .bind (.number 2) fun bits => .check_not <| .check_not <| .check <| .check <| .check_not ?_
  dsimp only
  split
  · exact shrinks_readInteger length _
  · exact shrinks_readFloat length _
  · exact shrinks_readExtended length _
  · exact .throw _

/-- The search is over before the fuel is. -/
theorem findData_succ (format : Option Format) (fuel : Nat) (hfuel : bytes.length ≤ fuel) :
    findData format (fuel + 1) bytes = findData format fuel bytes := by
  induction fuel generalizing format bytes with
  | zero =>
    rw [List.length_eq_zero_iff.1 (Nat.le_zero.1 hfuel)]
    rfl
  | succ fuel ih =>
    rw [findData, findData]
    refine bind_congr_of_ok fun tag mid htag => ?_
    obtain ⟨htag, -, rfl⟩ := take_eq_ok.1 htag
    refine bind_congr_of_ok fun length mid hlength => ?_
    obtain ⟨hlength, -, rfl⟩ := number_eq_ok.1 hlength
    have hshort : ((bytes.drop 4).drop 4).length ≤ fuel := by
      simp only [List.length_drop] at hlength ⊢
      omega
    by_cases hfmt : tag = tagBytes "fmt "
    · rw [if_pos hfmt, if_pos hfmt]
      exact bind_congr_of_ok fun f rest hformat =>
        ih _ (Nat.le_trans (shrinks_readFormat length _ f rest hformat) hshort)
    rw [if_neg hfmt, if_neg hfmt]
    by_cases hfact : tag = tagBytes "fact"
    · rw [if_pos hfact, if_pos hfact]
      exact bind_congr_of_ok fun f rest htake =>
        ih _ (Nat.le_trans (Shrinks.take 4 _ f rest htake) hshort)
    rw [if_neg hfact, if_neg hfact]
    by_cases hdata : tag = tagBytes "data"
    · rw [if_pos hdata, if_pos hdata]
    · rw [if_neg hdata, if_neg hdata]
      exact bind_congr_of_ok fun f rest htake =>
        ih _ (Nat.le_trans (Shrinks.take length _ f rest htake) hshort)

theorem findData_of_length_le (format : Option Format) {fuel : Nat} (hfuel : bytes.length ≤ fuel) :
    findData format fuel bytes = findData format bytes.length bytes := by
  obtain ⟨extra, rfl⟩ := Nat.exists_eq_add_of_le hfuel
  induction extra with
  | zero => rfl
  | succ extra ih =>
    rw [← ih (Nat.le_add_right ..)]
    exact findData_succ format _ (Nat.le_add_right ..)

theorem readHeader_ok {count : Nat} (h : readHeader bytes = .ok ((f, count), rest)) :
    count % f.channels = 0 := by
  simp only [readHeader, bind_eq_ok, check_eq_ok] at h
  obtain ⟨_, _, -, -, _, _, -, _, _, -, -, _, _, -, _, _, -, -, hchannels, hpure⟩ := h
  obtain ⟨hpair, -⟩ := pure_eq_ok.1 hpure
  cases hpair
  exact hchannels

/-! ## One sample -/

theorem number_bind_pure_ok {n : Nat} {g : Nat → α} {a : α}
    (h : (do return g (← number n) : Reader α) bytes = .ok (a, rest)) :
    n ≤ bytes.length ∧ rest = bytes.drop n := by
  obtain ⟨v, mid, hnumber, hpure⟩ := bind_eq_ok.1 h
  obtain ⟨hlength, -, rfl⟩ := number_eq_ok.1 hnumber
  exact ⟨hlength, (pure_eq_ok.1 hpure).2⟩

/-- An integer is read from the bytes of one sample, and only four numbers of bits can be read. -/
theorem readIntegerSample_ok {v : Int} (h : readIntegerSample f bytes = .ok (v, rest)) :
    f.bits ∈ [8, 16, 24, 32] ∧ f.width ≤ bytes.length ∧ rest = bytes.drop f.width := by
  obtain ⟨channels, rate, bits, width, encoding⟩ := f
  simp only [readIntegerSample] at h
  split at h
  case h_6 => cases h
  all_goals exact ⟨by simp, number_bind_pure_ok h⟩

theorem readFloatSample_ok {x : Float32} (h : readFloatSample f bytes = .ok (x, rest)) :
    f.width ≤ bytes.length ∧ rest = bytes.drop f.width := by
  obtain ⟨channels, rate, bits, width, encoding⟩ := f
  simp only [readFloatSample] at h
  split at h
  · exact number_bind_pure_ok h
  · cases h

/-- The shift overflows from 64 bits on. -/
theorem shiftedOne_eq_error_iff {shift : Nat} {overflow : Overflow} :
    shiftedOne shift = .error overflow ↔ 64 ≤ shift ∧ overflow = ⟨shift⟩ := by
  unfold shiftedOne
  split
  · next hlt => simp [Nat.not_le.2 hlt]
  · next hge => simp [Nat.not_lt.1 hge, eq_comm]

theorem fullScale_eq_error_iff {bits : Nat} {overflow : Overflow} :
    fullScale bits = .error overflow ↔ 64 ≤ bits - 1 ∧ overflow = ⟨bits - 1⟩ := by
  have hshift : max bits 1 - 1 = bits - 1 := by omega
  rw [fullScale, hshift, ← shiftedOne_eq_error_iff]
  cases shiftedOne (bits - 1) <;> simp [Functor.map, Except.map]

/-- Only for integers is there a scale that can overflow. -/
theorem sampleReader_eq_error_iff {overflow : Overflow} : sampleReader f = .error overflow ↔
    f.encoding = .integer ∧ 64 ≤ f.bits - 1 ∧ overflow = ⟨f.bits - 1⟩ := by
  rw [← fullScale_eq_error_iff, sampleReader]
  cases hencoding : f.encoding with
  | integer => cases fullScale f.bits <;> simp [bind, Except.bind, pure, Except.pure]
  | float => simp [pure, Except.pure]

/-- A sample is read from its own bytes. -/
theorem sampleReader_ok {next : Reader Float32} {x : Float32} (hnext : sampleReader f = .ok next)
    (h : next bytes = .ok (x, rest)) :
    (f.encoding = .integer → f.bits ∈ [8, 16, 24, 32]) ∧ f.width ≤ bytes.length ∧
      rest = bytes.drop f.width := by
  cases hencoding : f.encoding with
  | integer =>
    cases hscale : fullScale f.bits with
    | error overflow => simp [sampleReader, hencoding, hscale, bind, Except.bind] at hnext
    | ok scale =>
      simp only [sampleReader, hencoding, hscale, ← bind_pure_comp] at hnext
      cases hnext
      obtain ⟨v, mid, hread, hpure⟩ := bind_eq_ok.1 h
      obtain ⟨hbits, hlength, rfl⟩ := readIntegerSample_ok hread
      exact ⟨fun _ => hbits, hlength, (pure_eq_ok.1 hpure).2⟩
  | float =>
    simp only [sampleReader, hencoding] at hnext
    cases hnext
    exact ⟨nofun, readFloatSample_ok h⟩

/-! ## All samples -/

/-- The samples stand one after the other, each in its own bytes. -/
def AreSamples (next : Reader Float32) (width : Nat) (data : List UInt8) (xs : List Float32) :
    Prop :=
  ∀ i (hi : i < xs.length),
    next (data.drop (i * width)) = .ok (xs[i], data.drop ((i + 1) * width))

variable {next : Reader Float32}

theorem areSamples_nil (next : Reader Float32) (width : Nat) (data : List UInt8) :
    AreSamples next width data [] :=
  fun i hi => absurd hi (Nat.not_lt_zero i)

theorem AreSamples.cons {width : Nat} {x : Float32} {xs : List Float32}
    (hx : next bytes = .ok (x, bytes.drop width))
    (h : AreSamples next width (bytes.drop width) xs) : AreSamples next width bytes (x :: xs) := by
  intro i hi
  cases i with
  | zero => simpa using hx
  | succ i =>
    have hnext := h i (Nat.lt_of_succ_lt_succ hi)
    have hshift (j : Nat) : (bytes.drop width).drop (j * width) =
        bytes.drop ((j + 1) * width) := by
      rw [List.drop_drop, Nat.add_comm, Nat.add_one_mul]
    rwa [hshift, hshift] at hnext

theorem readSamples_ok {found all : Array Float32} {n : Nat} (hnext : sampleReader f = .ok next)
    (h : readSamples next found n bytes = .ok (all, rest)) :
    ∃ xs, all.toList = found.toList ++ xs ∧ xs.length = n ∧ AreSamples next f.width bytes xs := by
  induction n generalizing found bytes with
  | zero =>
    obtain ⟨rfl, -⟩ := pure_eq_ok.1 h
    exact ⟨[], by simp, rfl, areSamples_nil next f.width bytes⟩
  | succ n ih =>
    rw [readSamples] at h
    obtain ⟨x, mid, hread, hrest⟩ := bind_eq_ok.1 h
    obtain ⟨-, -, rfl⟩ := sampleReader_ok hnext hread
    obtain ⟨xs, hall, hlength, hsamples⟩ := ih hrest
    exact ⟨x :: xs, by simp [hall], by simp [hlength], .cons hread hsamples⟩

/-! ## Mixing down -/

/-- The mean of the values of a frame, which are added up from the first one. -/
def mean (frame : List Float32) : Float32 :=
  frame.foldl (· + ·) (-0.0) / Float32.ofNat frame.length

/-- The values of a frame. -/
def frameAt (channels : Nat) (xs : List Float32) (i : Nat) : List Float32 :=
  (xs.drop (i * channels)).take channels

theorem size_mixDown (channels : Nat) (samples : Array Float32) :
    (mixDown channels samples).size = samples.size / channels := by
  simp [mixDown]

theorem length_frameAt {channels : Nat} {xs : List Float32} {i : Nat}
    (hi : i < xs.length / channels) : (frameAt channels xs i).length = channels := by
  have hframe : (i + 1) * channels ≤ xs.length :=
    Nat.le_trans (Nat.mul_le_mul_right channels hi) (Nat.div_mul_le_self xs.length channels)
  rw [Nat.add_one_mul] at hframe
  rw [frameAt, List.length_take, List.length_drop]
  omega

theorem getElem_mixDown (channels : Nat) (samples : Array Float32) {i : Nat}
    (hi : i < (mixDown channels samples).size) :
    (mixDown channels samples)[i] = mean (frameAt channels samples.toList i) := by
  have hlength := length_frameAt (size_mixDown channels samples ▸ hi)
  rw [mean, hlength]
  simp only [mixDown, Array.getElem_map, Array.getElem_range]
  rw [← Array.foldl_toList, Array.toList_extract, List.extract_eq_take_drop, Nat.add_one_mul,
    Nat.add_sub_cancel_left]
  rfl

/-! ## Whole files -/

/-- The buffer holds the frames of a file: the samples `xs` are read from the bytes after the
header, as many as it says, and every value is the mean of one frame of them. -/
structure Decoded (f : Format) (count : Nat) (data : List UInt8) (xs : List Float32)
    (b : SampleBuffer) : Prop where
  rate : b.rate = f.rate
  nonempty : 0 < b.samples.size
  length : xs.length = count
  samples : ∃ next, sampleReader f = .ok next ∧ AreSamples next f.width data xs
  size : b.samples.size * f.channels = count
  frames : ∀ i (hi : i < b.samples.size), (frameAt f.channels xs i).length = f.channels ∧
    b.samples[i] = mean (frameAt f.channels xs i)
  bits : f.encoding = .integer → f.bits ∈ [8, 16, 24, 32]

theorem decoded_mixDown {count : Nat} {data : List UInt8} {all : Array Float32}
    (hheader : readHeader bytes = .ok ((f, count), data)) (hnext : sampleReader f = .ok next)
    (hread : readSamples next #[] count data = .ok (all, rest)) (hne : ¬ all.isEmpty = true) :
    Decoded f count data all.toList ⟨mixDown f.channels all, f.rate⟩ := by
  obtain ⟨xs, hall, hlength, hsamples⟩ := readSamples_ok hnext hread
  obtain rfl : all.toList = xs := by simpa using hall
  have hpos : 0 < all.toList.length := by
    rw [Array.length_toList]
    simpa [Nat.pos_iff_ne_zero] using hne
  have hdvd : f.channels ∣ all.size := Nat.dvd_of_mod_eq_zero (by
    rw [← Array.length_toList, hlength]
    exact readHeader_ok hheader)
  have hsize : (mixDown f.channels all).size * f.channels = count := by
    rw [size_mixDown, Nat.div_mul_cancel hdvd, ← hlength, Array.length_toList]
  refine ⟨rfl, ?_, hlength, ⟨next, hnext, hsamples⟩, hsize, fun i hi => ⟨?_, ?_⟩,
    fun hinteger => ?_⟩
  · exact Nat.pos_of_ne_zero fun hzero => by
      rw [hzero, Nat.zero_mul] at hsize
      omega
  · exact length_frameAt (size_mixDown f.channels all ▸ hi)
  · exact getElem_mixDown f.channels all hi
  · exact (sampleReader_ok hnext (hsamples 0 hpos)).1 hinteger

/-! ## How decoding ends -/

theorem ofWave_of_error {fault : Fault} (hheader : readHeader bytes = .error fault) :
    SampleBuffer.ofWave bytes = .ok (.error (.wave fault)) := by
  rw [SampleBuffer.ofWave, decode, hheader]
  rfl

theorem ofWave_of_overflow {count : Nat} {data : List UInt8} {overflow : Overflow}
    (hheader : readHeader bytes = .ok ((f, count), data))
    (hnext : sampleReader f = .error overflow) : SampleBuffer.ofWave bytes = .error overflow := by
  simp only [SampleBuffer.ofWave, decode, hheader, hnext, bind, Except.bind]

/-- Once there is a reader of samples, decoding ends with an error or with all frames. -/
theorem ofWave_of_reader {count : Nat} {data : List UInt8}
    (hheader : readHeader bytes = .ok ((f, count), data)) (hnext : sampleReader f = .ok next) :
    (∃ error, SampleBuffer.ofWave bytes = .ok (.error error)) ∨
      ∃ xs b, SampleBuffer.ofWave bytes = .ok (.ok b) ∧ Decoded f count data xs b := by
  have hdecode : decode bytes = .ok ((f, ·) <$> (readSamples next #[] count).run' data) := by
    simp only [decode, hheader, hnext]
    rfl
  cases hread : readSamples next #[] count data with
  | error fault =>
    refine Or.inl ⟨.wave fault, ?_⟩
    simp only [SampleBuffer.ofWave, hdecode, StateT.run', hread]
    rfl
  | ok result =>
    obtain ⟨all, rest⟩ := result
    have hbuffer : SampleBuffer.ofWave bytes = if all.isEmpty then .ok (.error .empty)
        else .ok (.ok ⟨mixDown f.channels all, f.rate⟩) := by
      simp only [SampleBuffer.ofWave, hdecode, StateT.run', hread]
      rfl
    by_cases hempty : all.isEmpty = true
    · exact Or.inl ⟨.empty, by rw [hbuffer, if_pos hempty]⟩
    · exact Or.inr ⟨_, _, by rw [hbuffer, if_neg hempty],
        decoded_mixDown hheader hnext hread hempty⟩

/-- Decoding overflows for the headers whose scale does, whether there are samples or not. -/
theorem ofWave_eq_error_iff {overflow : Overflow} : SampleBuffer.ofWave bytes = .error overflow ↔
    ∃ f count data, readHeader bytes = .ok ((f, count), data) ∧
      sampleReader f = .error overflow := by
  constructor
  · intro h
    cases hheader : readHeader bytes with
    | error fault =>
      rw [ofWave_of_error hheader] at h
      cases h
    | ok header =>
      obtain ⟨⟨f, count⟩, data⟩ := header
      refine ⟨f, count, data, rfl, ?_⟩
      cases hnext : sampleReader f with
      | error overflow' =>
        rw [ofWave_of_overflow hheader hnext] at h
        exact congrArg Except.error (Except.error.inj h)
      | ok next =>
        rcases ofWave_of_reader hheader hnext with ⟨error, hend⟩ | ⟨xs, b, hend, -⟩ <;>
          rw [hend] at h <;> cases h
  · rintro ⟨f, count, data, hheader, hnext⟩
    exact ofWave_of_overflow hheader hnext

/-- Decoding drops no frame: the search for the samples ends by itself, and whatever the bytes are,
there is an error or a buffer of all frames, unless the scale of the samples overflows. That happens
for the headers that name 65 bits or more for integers, even if there are no samples. -/
theorem ofWave_total (bytes : List UInt8) :
    (∀ format fuel, bytes.length ≤ fuel →
      findData format fuel bytes = findData format bytes.length bytes) ∧
    (∀ shift, SampleBuffer.ofWave bytes = .error ⟨shift⟩ ↔ 64 ≤ shift ∧
      ∃ f count data, readHeader bytes = .ok ((f, count), data) ∧ f.encoding = .integer ∧
        f.bits - 1 = shift) ∧
    ((∃ shift, SampleBuffer.ofWave bytes = .error ⟨shift⟩) ∨
      (∃ error, SampleBuffer.ofWave bytes = .ok (.error error)) ∨
      ∃ f count data xs b, readHeader bytes = .ok ((f, count), data) ∧
        SampleBuffer.ofWave bytes = .ok (.ok b) ∧ Decoded f count data xs b) := by
  refine ⟨fun format fuel hfuel => findData_of_length_le format hfuel, fun shift => ?_, ?_⟩
  · simp only [ofWave_eq_error_iff, sampleReader_eq_error_iff, Overflow.mk.injEq]
    constructor
    · rintro ⟨f, count, data, hheader, hinteger, hbits, rfl⟩
      exact ⟨hbits, f, count, data, hheader, hinteger, rfl⟩
    · rintro ⟨hbits, f, count, data, hheader, hinteger, rfl⟩
      exact ⟨f, count, data, hheader, hinteger, hbits, rfl⟩
  · cases hheader : readHeader bytes with
    | error fault => exact Or.inr (Or.inl ⟨.wave fault, ofWave_of_error hheader⟩)
    | ok header =>
      obtain ⟨⟨f, count⟩, data⟩ := header
      cases hnext : sampleReader f with
      | error overflow => exact Or.inl ⟨overflow.shift, ofWave_of_overflow hheader hnext⟩
      | ok next =>
        rcases ofWave_of_reader hheader hnext with herror | ⟨xs, b, hend, hdecoded⟩
        · exact Or.inr (Or.inl herror)
        · exact Or.inr (Or.inr ⟨f, count, data, xs, b, rfl, hend, hdecoded⟩)

/-- A file without samples, in an extended format of integers with so many valid bits. -/
def silentFile (validBits : Nat) : List UInt8 :=
  chunk "RIFF" <| tagBytes "WAVE" ++ chunk "fmt " (toBytes 2 0xfffe ++ toBytes 2 1 ++
    toBytes 4 8000 ++ toBytes 4 32000 ++ toBytes 2 4 ++ toBytes 2 32 ++ toBytes 2 22 ++
    toBytes 2 validBits ++ toBytes 4 0 ++ [0x01, 0x00] ++ identifierTail) ++ chunk "data" []

theorem ofWave_total_silent :
    readHeader (silentFile 65) = .ok ((⟨1, 8000, 65, 4, .integer⟩, 0), []) ∧
      SampleBuffer.ofWave (silentFile 65) = .error ⟨64⟩ ∧
      findData none 100 (silentFile 65) =
        findData none (silentFile 65).length (silentFile 65) := by
  have hheader : readHeader (silentFile 65) = .ok ((⟨1, 8000, 65, 4, .integer⟩, 0), []) := rfl
  obtain ⟨hfuel, hoverflow, -⟩ := ofWave_total (silentFile 65)
  refine ⟨hheader, (hoverflow 64).2 ⟨Nat.le_refl 64, _, _, _, hheader, rfl, rfl⟩, ?_⟩
  exact hfuel none 100 (by decide)

/-- The integers of a header can have a scale that does not fit into 64 bits, and then there is
neither an error nor a buffer. -/
theorem scale_overflows :
    (¬ ∀ bytes, ∃ result, SampleBuffer.ofWave bytes = .ok result) ∧
      ¬ ∀ bytes f count data, readHeader bytes = .ok ((f, count), data) →
        f.encoding = .integer → f.bits - 1 < 64 := by
  have hheader : readHeader (silentFile 65) = .ok ((⟨1, 8000, 65, 4, .integer⟩, 0), []) := rfl
  have hnext : sampleReader ⟨1, 8000, 65, 4, .integer⟩ = .error ⟨64⟩ := rfl
  refine ⟨fun h => ?_, fun h => absurd (h _ _ _ _ hheader rfl) (by decide)⟩
  obtain ⟨result, hresult⟩ := h (silentFile 65)
  rw [ofWave_of_overflow hheader hnext] at hresult
  cases hresult

end WaveFile

end PatternSynth
