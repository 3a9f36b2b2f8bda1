import AlibC.Lib.ZStream

/-! Streams that are encoded while their input arrives in chunks: what `deflate` is documented to do
without a flush and with `Z_FINISH`. -/
namespace ZStream

variable {σ : Type}

/-- `Z_NO_FLUSH` and `Z_FINISH`. -/
inductive Flush where
  | noFlush | finish
deriving DecidableEq, Repr

/-- `deflateInit`, which is given a level, and `deflate`. -/
structure Compressor (σ : Type) where
  init : Int → σ
  deflate : Flush → Call σ

/-- What a call without a flush may return where `x` was used and `o` put out before: it stops when its
input is used up or the room is filled. -/
structure Gathers (At : σ → List UInt8 → List UInt8 → Prop) (x o y : List UInt8) (room : Nat)
    (r : Reply σ) : Prop where
  used_le : r.used ≤ y.length
  out_le : r.out.length ≤ room
  state : At r.state (x ++ y.take r.used) (o ++ r.out)
  stopped : y.drop r.used = [] ∨ r.out.length = room
  code : r.code = .ok ∨ r.code = .bufError

/-- The contract of `deflate` for the input `src`, in whatever chunks it comes. In a state `At` which `x`
was used and `o` put out, `o` is a part of a stream for `src` without its end. Where the rest of the input
is given with `Z_FINISH` the calls are `Closing` the stream `w`. -/
structure Compresses (d : Compressor σ) (level : Int) (fmt : Format) (src : List UInt8)
    (At : σ → List UInt8 → List UInt8 → Prop)
    (Closing : List UInt8 → σ → List UInt8 → List UInt8 → Prop) : Prop where
  init : At (d.init level) [] []
  cut : ∀ {s : σ} {x o : List UInt8}, At s x o → ∃ w, Encodes fmt src w ∧ o <+: w ∧ o ≠ w
  gather : ∀ {s : σ} {x o y : List UInt8} {room : Nat}, At s x o → x ++ y <+: src → 0 < room →
    Gathers At x o y room (d.deflate .noFlush s y room)
  finish : ∀ {s : σ} {x o y : List UInt8}, At s x o → x ++ y = src →
    ∃ w, Encodes fmt src w ∧ o <+: w ∧ Closing w s o y
  close : ∀ {w : List UInt8} {s : σ} {o y : List UInt8} {room : Nat}, Closing w s o y → 0 < room →
    Writes w (Closing w) o y room (d.deflate .finish s y room)

variable {d : Compressor σ} {level : Int} {fmt : Format} {src w x o y : List UInt8}
  {At : σ → List UInt8 → List UInt8 → Prop} {Closing : List UInt8 → σ → List UInt8 → List UInt8 → Prop}
  {room : Nat} {s : σ}

/-- No more is put out than the longest stream has. -/
theorem Compresses.length_le (h : Compresses d level fmt src At Closing) (hat : At s x o) :
    o.length ≤ src.length + src.length / 1000 + 12 := by
  obtain ⟨w, hw, hpre, -⟩ := h.cut hat
  exact Nat.le_trans hpre.length_le hw.expansion

/-- However much room there is, the calls without a flush end, and use up a chunk. -/
theorem Compresses.feeds_chunk (h : Compresses d level fmt src At Closing) (fails : ZCode → Bool)
    (hfails : fails .ok = false ∧ fails .bufError = false) (hroom : 0 < room) :
    ∀ (n : Nat) {s : σ} {x o y : List UInt8}, At s x o → x ++ y <+: src →
      src.length + src.length / 1000 + 12 - o.length < n →
      ∃ f, Feeds (d.deflate .noFlush) fails room s y f ∧ f.failed = false ∧
        At f.state (x ++ y) (o ++ f.pieces.flatten) := by
  intro n
  induction n with
  | zero => intro s x o y _ _ hn; omega
  | succ n ih =>
    intro s x o y hat hpre hn
    obtain ⟨hused, hle, hat', hstop, hcode⟩ := h.gather hat hpre hroom
    set r := d.deflate .noFlush s y room with hr
    have hgoes : fails r.code = false := by
      rcases hcode with he | he
      · rw [he, hfails.1]
      · rw [he, hfails.2]
    by_cases hfull : r.out.length = room
    · have hlen := h.length_le hat'
      rw [List.length_append] at hlen
      obtain ⟨f, hfeeds, hok, hend⟩ := @ih r.state (x ++ y.take r.used) (o ++ r.out) (y.drop r.used) hat'
        (by rw [append_take_drop]; exact hpre) (by rw [List.length_append]; omega)
      refine ⟨_, .more hfull hgoes hfeeds, hok, ?_⟩
      rw [append_take_drop, List.append_assoc] at hend
      exact hend
    · have hall : y.length ≤ r.used := List.drop_eq_nil_iff.mp (hstop.resolve_right hfull)
      refine ⟨_, .last (Nat.lt_of_le_of_ne hle hfull) hgoes, rfl, ?_⟩
      rw [List.take_of_length_le hall] at hat'
      rw [List.flatten_singleton]
      exact hat'

/-- The calls that close a stream of which `o` was put out put out the rest. -/
theorem Compresses.deflates (h : Compresses d level fmt src At Closing) {t : List UInt8}
    (hclosing : Closing (o ++ t) s o y) : Deflates ⟨fun _ => s, d.deflate .finish⟩ level y t
      fun s' o' y' => Closing (o ++ t) s' (o ++ o') y' := by
  refine ⟨by rw [List.append_nil]; exact hclosing, ?_⟩
  intro s' o' y' room hgiven hroom
  obtain ⟨hused, hle, hout, hstate, hcode⟩ := h.close hgiven hroom
  rw [List.append_assoc] at hout hstate hcode
  refine ⟨hused, hle, (List.prefix_append_right_inj o).mp hout, hstate, ?_⟩
  rwa [List.append_cancel_left_eq] at hcode

/-- The calls with `Z_FINISH` end, and leave a whole stream. -/
theorem Compresses.feeds_last (h : Compresses d level fmt src At Closing) (fails : ZCode → Bool)
    (hfails : fails .ok = false ∧ fails .streamEnd = false) (hroom : 0 < room) (hat : At s x o)
    (hall : x ++ y = src) : ∃ f, Feeds (d.deflate .finish) fails room s y f ∧ f.failed = false ∧
      f.code = .streamEnd ∧ Encodes fmt src (o ++ f.pieces.flatten) := by
  obtain ⟨w, hw, ⟨t, rfl⟩, hclosing⟩ := h.finish hat hall
  obtain ⟨f, hfeeds, hok, hend, hout, -⟩ := (h.deflates hclosing).feeds hfails hroom _
    (h.deflates hclosing).init List.nil_prefix (Nat.lt_succ_self _)
  rw [List.nil_append] at hout
  refine ⟨f, hfeeds, hok, hend, ?_⟩
  rw [hout]
  exact hw

/-- The encoder that keeps its input to itself until it is told to finish. -/
def Compressor.ofStream (w : List UInt8) : Compressor (List UInt8) where
  init := fun _ => w
  deflate
    | .noFlush => fun s y _ => ⟨if y = [] then .bufError else .ok, y.length, [], s⟩
    | .finish => (Deflater.ofStream w).deflate

theorem compresses_ofStream (level : Int) (h : Encodes fmt src w) :
    Compresses (Compressor.ofStream w) level fmt src (fun s _ o => s = w ∧ o = [])
      fun w' s o _ => w' = w ∧ o ++ s = w := by
  refine ⟨⟨rfl, rfl⟩, ?_, ?_, ?_, ?_⟩
  · rintro s x o ⟨rfl, rfl⟩
    exact ⟨s, h, List.nil_prefix, h.ne_nil.symm⟩
  · rintro s x o y room ⟨rfl, rfl⟩ - -
    refine ⟨Nat.le_refl _, Nat.zero_le _, ⟨rfl, rfl⟩, .inl List.drop_length, ?_⟩
    change (if y = [] then ZCode.bufError else .ok) = .ok ∨ (if y = [] then ZCode.bufError else .ok) = .bufError
    split
    · exact .inr rfl
    · exact .inl rfl
  · rintro s x o y ⟨rfl, rfl⟩ -
    exact ⟨s, h, List.nil_prefix, rfl, rfl⟩
  · rintro w' s o y room ⟨rfl, hs⟩ hroom
    obtain ⟨hused, hle, hout, hstate, hcode⟩ := (deflates_ofStream level src w').call hs hroom (y := y)
    exact ⟨hused, hle, hout, ⟨rfl, hstate⟩, hcode⟩

end ZStream
