import GlyphSearch.Error
import GlyphSearch.Gzip.Member

/-!
# Inflating more bytes

Decompression never looks ahead. With more bytes behind its input, every step
that has come to a result comes to the same result, and leaves the bytes that
it has left before with the new ones behind them. A step that has failed may go
on, but what has been put out stays: nothing is ever taken back.

`Goes` says both of two runs, the second with more bytes than the first. It is
proved step by step, up to `goes_inflate`; that runs have no lack of fuel does
not matter for it, since more bytes come with more fuel.
-/

namespace GlyphSearch.Gzip

/-! ## Reading bits -/

/-- The input with more bytes behind it. -/
def Bits.followedBy (b : Bits) (more : Bytes) : Bits := { b with rest := b.rest ++ more }

section

variable {b b' : Bits} (more : Bytes)

theorem Bits.takeBit_followedBy {bit : Bool} (h : b.takeBit = .ok (bit, b')) :
    (b.followedBy more).takeBit = .ok (bit, b'.followedBy more) := by
  obtain ⟨held, count, rest⟩ := b
  cases count with
  | succ n =>
      cases h
      rfl
  | zero =>
      cases rest with
      | nil => cases h
      | cons byte rest =>
          cases h
          rfl

theorem Bits.takeNumber_followedBy {n k : Nat} (h : Bits.takeNumber n b = .ok (k, b')) :
    Bits.takeNumber n (b.followedBy more) = .ok (k, b'.followedBy more) := by
  induction n generalizing b k with
  | zero =>
      cases h
      rfl
  | succ n ih =>
      rw [Bits.takeNumber] at h ⊢
      obtain ⟨⟨bit, b₁⟩, hbit, h⟩ := bind_eq_ok.mp h
      obtain ⟨⟨high, b₂⟩, hhigh, h⟩ := bind_eq_ok.mp h
      cases h
      rw [takeBit_followedBy more hbit]
      exact bind_eq_ok.mpr ⟨_, rfl, bind_eq_ok.mpr ⟨_, ih hhigh, rfl⟩⟩

theorem Huffman.decode_followedBy {code : Huffman} {symbol : Nat}
    (h : code.decode b = .ok (symbol, b')) :
    code.decode (b.followedBy more) = .ok (symbol, b'.followedBy more) := by
  induction code generalizing b with
  | unused => cases h
  | leaf s =>
      cases h
      rfl
  | node zero one ihzero ihone =>
      rw [Huffman.decode] at h ⊢
      obtain ⟨⟨bit, b₁⟩, hbit, h⟩ := bind_eq_ok.mp h
      refine bind_eq_ok.mpr ⟨_, Bits.takeBit_followedBy more hbit, ?_⟩
      cases bit with
      | true => exact ihone h
      | false => exact ihzero h

theorem extend_followedBy {table : Array (Nat × Nat)} {symbol n : Nat}
    (h : extend table symbol b = .ok (n, b')) :
    extend table symbol (b.followedBy more) = .ok (n, b'.followedBy more) := by
  rw [extend] at h ⊢
  split at h
  · cases h
  · obtain ⟨⟨k, b₁⟩, hk, h⟩ := bind_eq_ok.mp h
    cases h
    exact bind_eq_ok.mpr ⟨_, Bits.takeNumber_followedBy more hk, rfl⟩

theorem readRepeat_followedBy {distances : Huffman} {symbol length distance : Nat}
    (h : readRepeat distances symbol b = .ok (length, distance, b')) :
    readRepeat distances symbol (b.followedBy more) =
      .ok (length, distance, b'.followedBy more) := by
  rw [readRepeat] at h ⊢
  obtain ⟨⟨k, b₁⟩, hk, h⟩ := bind_eq_ok.mp h
  obtain ⟨⟨s, b₂⟩, hs, h⟩ := bind_eq_ok.mp h
  obtain ⟨⟨d, b₃⟩, hd, h⟩ := bind_eq_ok.mp h
  cases h
  refine bind_eq_ok.mpr ⟨_, extend_followedBy more hk, ?_⟩
  refine bind_eq_ok.mpr ⟨_, Huffman.decode_followedBy more hs, ?_⟩
  exact bind_eq_ok.mpr ⟨_, extend_followedBy more hd, rfl⟩

theorem takeTriples_followedBy {n : Nat} {triples : List Nat}
    (h : takeTriples n b = .ok (triples, b')) :
    takeTriples n (b.followedBy more) = .ok (triples, b'.followedBy more) := by
  induction n generalizing b triples with
  | zero =>
      cases h
      rfl
  | succ n ih =>
      rw [takeTriples] at h ⊢
      obtain ⟨⟨first, b₁⟩, hfirst, h⟩ := bind_eq_ok.mp h
      obtain ⟨⟨rest, b₂⟩, hrest, h⟩ := bind_eq_ok.mp h
      cases h
      refine bind_eq_ok.mpr ⟨_, Bits.takeNumber_followedBy more hfirst, ?_⟩
      exact bind_eq_ok.mpr ⟨_, ih hrest, rfl⟩

theorem readLengths_followedBy {code : Huffman} {total fuel : Nat} {done lengths : List Nat}
    (h : readLengths code total fuel done b = .ok (lengths, b')) :
    readLengths code total fuel done (b.followedBy more) =
      .ok (lengths, b'.followedBy more) := by
  induction fuel generalizing b done with
  | zero => cases h
  | succ fuel ih =>
      rw [readLengths] at h ⊢
      split at h
      · cases h
      · next hfew =>
          rw [if_neg hfew]
          split at h
          · next hall =>
              cases h
              exact if_pos hall
          · next hopen =>
              rw [if_neg hopen]
              split at h
              · cases h
              · next symbol b₁ hsymbol =>
                  rw [Huffman.decode_followedBy more hsymbol]
                  dsimp only
                  split at h
                  · next hlength =>
                      rw [if_pos hlength]
                      exact ih h
                  · next hrun =>
                      rw [if_neg hrun]
                      split at h
                      · cases h
                      · split at h
                        · cases h
                        · next n b₂ hn =>
                            rw [Bits.takeNumber_followedBy more hn]
                            exact ih h

theorem readCodes_followedBy {literals distances : Huffman}
    (h : readCodes b = .ok (literals, distances, b')) :
    readCodes (b.followedBy more) = .ok (literals, distances, b'.followedBy more) := by
  rw [readCodes] at h ⊢
  obtain ⟨⟨n₁, b₁⟩, h₁, h⟩ := bind_eq_ok.mp h
  obtain ⟨⟨n₂, b₂⟩, h₂, h⟩ := bind_eq_ok.mp h
  obtain ⟨⟨n₃, b₃⟩, h₃, h⟩ := bind_eq_ok.mp h
  refine bind_eq_ok.mpr ⟨_, Bits.takeNumber_followedBy more h₁, ?_⟩
  refine bind_eq_ok.mpr ⟨_, Bits.takeNumber_followedBy more h₂, ?_⟩
  refine bind_eq_ok.mpr ⟨_, Bits.takeNumber_followedBy more h₃, ?_⟩
  dsimp only at h ⊢
  split at h
  · cases h
  · next hcounts =>
      rw [if_neg hcounts]
      obtain ⟨⟨triples, b₄⟩, h₄, h⟩ := bind_eq_ok.mp h
      obtain ⟨code, hcode, h⟩ := bind_eq_ok.mp h
      obtain ⟨⟨lengths, b₅⟩, h₅, h⟩ := bind_eq_ok.mp h
      obtain ⟨first, hfirst, h⟩ := bind_eq_ok.mp h
      obtain ⟨second, hsecond, h⟩ := bind_eq_ok.mp h
      cases h
      refine bind_eq_ok.mpr ⟨_, takeTriples_followedBy more h₄, ?_⟩
      refine bind_eq_ok.mpr ⟨_, hcode, ?_⟩
      refine bind_eq_ok.mpr ⟨_, readLengths_followedBy more h₅, ?_⟩
      exact bind_eq_ok.mpr ⟨_, hfirst, bind_eq_ok.mpr ⟨_, hsecond, rfl⟩⟩

end

/-! ## Putting out bytes -/

/-- What has been put out stays. -/
def Grows (out : Array UInt8) (result : Inflated) : Prop := out.toList <+: result.1.toList

theorem prefix_push (out : Array UInt8) (b : UInt8) : out.toList <+: (out.push b).toList := by
  rw [Array.toList_push]
  exact List.prefix_append _ _

theorem prefix_repeatBack (distance n : Nat) (out : Array UInt8) :
    out.toList <+: (repeatBack distance n out).toList := by
  induction n generalizing out with
  | zero => exact List.prefix_refl _
  | succ n ih => exact (prefix_push out _).trans (ih _)

theorem grows_inflateSymbol (literals distances : Huffman) (b : Bits) (out : Array UInt8) :
    out.toList <+: (inflateSymbol literals distances b out).1.toList := by
  rw [inflateSymbol]
  split
  · exact List.prefix_refl _
  · split
    · exact prefix_push out _
    · split
      · exact List.prefix_refl _
      · split
        · exact List.prefix_refl _
        · exact prefix_repeatBack _ _ out

theorem grows_inflateSymbols (literals distances : Huffman) (fuel : Nat) (b : Bits)
    (out : Array UInt8) : Grows out (inflateSymbols literals distances fuel b out) := by
  induction fuel generalizing b out with
  | zero => exact List.prefix_refl _
  | succ fuel ih =>
      have hsymbol := grows_inflateSymbol literals distances b out
      rw [inflateSymbols]
      split
      · next heq =>
          rw [heq] at hsymbol
          exact hsymbol
      · next heq =>
          rw [heq] at hsymbol
          split
          · exact List.IsPrefix.trans hsymbol (ih _ _)
          · exact hsymbol

theorem toList_foldl_push (bs : Bytes) (out : Array UInt8) :
    (bs.foldl Array.push out).toList = out.toList ++ bs := by
  rw [List.foldl_push_eq_append, List.map_id', Array.toList_append]

theorem grows_inflateStored (b : Bits) (out : Array UInt8) : Grows out (inflateStored b out) := by
  rw [inflateStored]
  split
  · next l₁ l₂ n₁ n₂ rest _ =>
      split
      · exact List.prefix_refl _
      · have hcopied : out.toList <+:
            ((rest.take (l₁.toNat + 256 * l₂.toNat)).foldl Array.push out).toList := by
          rw [toList_foldl_push]
          exact List.prefix_append _ _
        dsimp only
        split
        · exact hcopied
        · exact hcopied
  · exact List.prefix_refl _

theorem grows_inflateBlock (fuel : Nat) (b : Bits) (out : Array UInt8) :
    Grows out (inflateBlock fuel b out) := by
  rw [inflateBlock]
  split
  · exact List.prefix_refl _
  · exact grows_inflateStored _ out
  · split
    · exact grows_inflateSymbols _ _ fuel _ out
    · exact List.prefix_refl _
  · split
    · exact List.prefix_refl _
    · exact grows_inflateSymbols _ _ fuel _ out
  · exact List.prefix_refl _

/-- What the first of some blocks puts out stays. -/
theorem prefix_inflateBlocks {symbolFuel fuel : Nat} {b b₁ : Bits} {isLast : Bool}
    (hbit : b.takeBit = .ok (isLast, b₁)) (out : Array UInt8)
    (hrest : ∀ b out, Grows out (inflateBlocks symbolFuel fuel b out)) :
    Grows (inflateBlock symbolFuel b₁ out).1 (inflateBlocks symbolFuel (fuel + 1) b out) := by
  rw [inflateBlocks, hbit]
  dsimp only
  split
  · next heq =>
      rw [heq]
      exact List.prefix_refl _
  · next b₂ heq =>
      rw [heq]
      split
      · exact List.prefix_refl _
      · exact hrest b₂ _

theorem grows_inflateBlocks (symbolFuel fuel : Nat) (b : Bits) (out : Array UInt8) :
    Grows out (inflateBlocks symbolFuel fuel b out) := by
  induction fuel generalizing b out with
  | zero => exact List.prefix_refl _
  | succ fuel ih =>
      cases hbit : b.takeBit with
      | error stop =>
          rw [inflateBlocks, hbit]
          exact List.prefix_refl _
      | ok taken =>
          exact List.IsPrefix.trans (grows_inflateBlock symbolFuel taken.2 out)
            (prefix_inflateBlocks hbit out ih)

/-! ## Runs on more bytes -/

/-- How a run goes on with more bytes: what it has put out stays, and if it has
come to its end, that end stays too. -/
structure Goes (more : Bytes) (x y : Inflated) : Prop where
  keeps : x.1.toList <+: y.1.toList
  of_ok : ∀ out b, x = (out, .ok b) → y = (out, .ok (b.followedBy more))

namespace Goes

variable {more : Bytes}

theorem of_error {out : Array UInt8} {stop : Stop} {y : Inflated} (h : Grows out y) :
    Goes more (out, .error stop) y := ⟨h, fun _ _ heq => by cases heq⟩

theorem done (out : Array UInt8) (b : Bits) :
    Goes more (out, .ok b) (out, .ok (b.followedBy more)) :=
  ⟨List.prefix_refl _, fun _ _ heq => by cases heq; rfl⟩

end Goes

theorem inflateSymbol_eq_error {literals distances : Huffman} {b : Bits} {out out' : Array UInt8}
    {stop : Stop} (h : inflateSymbol literals distances b out = (out', .error stop)) :
    out' = out := by
  rw [inflateSymbol] at h
  split at h
  · cases h
    rfl
  · split at h
    · cases h
    · split at h
      · cases h
      · split at h
        · cases h
          rfl
        · cases h

theorem inflateSymbol_followedBy {literals distances : Huffman} {b b' : Bits}
    {out out' : Array UInt8} {goesOn : Bool}
    (h : inflateSymbol literals distances b out = (out', .ok (goesOn, b'))) (more : Bytes) :
    inflateSymbol literals distances (b.followedBy more) out =
      (out', .ok (goesOn, b'.followedBy more)) := by
  rw [inflateSymbol] at h ⊢
  split at h
  · cases h
  · next symbol b₁ hsymbol =>
      rw [Huffman.decode_followedBy more hsymbol]
      dsimp only
      split at h
      · next hbyte =>
          rw [if_pos hbyte]
          cases h
          rfl
      · next hbyte =>
          rw [if_neg hbyte]
          split at h
          · next hend =>
              rw [if_pos hend]
              cases h
              rfl
          · next hend =>
              rw [if_neg hend]
              split at h
              · cases h
              · next hrepeat =>
                  rw [readRepeat_followedBy more hrepeat]
                  cases h
                  rfl

theorem goes_inflateSymbols (literals distances : Huffman) {fuel fuel' : Nat}
    (hfuel : fuel ≤ fuel') (b : Bits) (out : Array UInt8) (more : Bytes) :
    Goes more (inflateSymbols literals distances fuel b out)
      (inflateSymbols literals distances fuel' (b.followedBy more) out) := by
  induction fuel generalizing b out fuel' with
  | zero => exact .of_error (grows_inflateSymbols ..)
  | succ fuel ih =>
      cases fuel' with
      | zero => omega
      | succ fuel' =>
          have hgrows := grows_inflateSymbols literals distances (fuel' + 1) (b.followedBy more) out
          rw [inflateSymbols]
          split
          · next heq =>
              rw [inflateSymbol_eq_error heq]
              exact .of_error hgrows
          · next heq =>
              rw [inflateSymbols, inflateSymbol_followedBy heq more]
              dsimp only
              split
              · exact ih (by omega) _ _
              · exact .done _ _

theorem goes_inflateStored (b : Bits) (out : Array UInt8) (more : Bytes) :
    Goes more (inflateStored b out) (inflateStored (b.followedBy more) out) := by
  have hgrows := grows_inflateStored (b.followedBy more) out
  obtain ⟨held, count, rest⟩ := b
  rw [inflateStored]
  split
  · next l₁ l₂ n₁ n₂ rest heq =>
      cases heq
      rw [inflateStored] at hgrows ⊢
      dsimp only [Bits.toBytes, Bits.followedBy, List.cons_append] at hgrows ⊢
      split
      · exact .of_error (List.prefix_refl _)
      · split
        · next hshort =>
            -- The bytes that are there are copied also when there are more.
            have hcopied : ∀ length, ((rest.take length).foldl Array.push out).toList <+:
                (((rest ++ more).take length).foldl Array.push out).toList := by
              intro length
              rw [toList_foldl_push, toList_foldl_push]
              refine (List.prefix_append_right_inj _).mpr ?_
              refine List.prefix_take_iff.mpr ⟨?_, List.length_take_le _ _⟩
              exact (List.take_prefix _ _).trans (List.prefix_append rest more)
            split
            · exact .of_error (hcopied _)
            · exact .of_error (hcopied _)
        · next hlong =>
            have hlong' : l₁.toNat + 256 * l₂.toNat ≤ rest.length := Nat.le_of_not_lt hlong
            rw [if_neg (by rw [List.length_append]; omega), List.take_append_of_le_length hlong',
              List.drop_append_of_le_length hlong']
            exact .done _ _
  · exact .of_error hgrows

theorem goes_inflateBlock {fuel fuel' : Nat} (hfuel : fuel ≤ fuel') (b : Bits)
    (out : Array UInt8) (more : Bytes) :
    Goes more (inflateBlock fuel b out) (inflateBlock fuel' (b.followedBy more) out) := by
  have hgrows := grows_inflateBlock fuel' (b.followedBy more) out
  rw [inflateBlock]
  split
  · exact .of_error hgrows
  · next b₁ htype =>
      rw [inflateBlock, Bits.takeNumber_followedBy more htype]
      exact goes_inflateStored b₁ out more
  · next b₁ htype =>
      rw [inflateBlock, Bits.takeNumber_followedBy more htype]
      simp only
      split
      · exact goes_inflateSymbols _ _ hfuel b₁ out more
      · exact .of_error (List.prefix_refl _)
  · next b₁ htype =>
      rw [inflateBlock, Bits.takeNumber_followedBy more htype] at hgrows ⊢
      simp only at hgrows ⊢
      split
      · exact .of_error hgrows
      · next hcodes =>
          rw [readCodes_followedBy more hcodes]
          exact goes_inflateSymbols _ _ hfuel _ out more
  · exact .of_error hgrows

theorem goes_inflateBlocks {symbolFuel symbolFuel' fuel fuel' : Nat}
    (hsymbols : symbolFuel ≤ symbolFuel') (hfuel : fuel ≤ fuel') (b : Bits) (out : Array UInt8)
    (more : Bytes) : Goes more (inflateBlocks symbolFuel fuel b out)
      (inflateBlocks symbolFuel' fuel' (b.followedBy more) out) := by
  induction fuel generalizing b out fuel' with
  | zero => exact .of_error (grows_inflateBlocks symbolFuel' fuel' _ out)
  | succ fuel ih =>
      cases fuel' with
      | zero => omega
      | succ fuel' =>
          rw [inflateBlocks]
          split
          · exact .of_error (grows_inflateBlocks ..)
          · next isLast b₁ hbit =>
              have hbit' := Bits.takeBit_followedBy more hbit
              have hblock := goes_inflateBlock hsymbols b₁ out more
              split
              · next out₁ stop heq =>
                  rw [heq] at hblock
                  exact .of_error (hblock.keeps.trans
                    (prefix_inflateBlocks hbit' out (grows_inflateBlocks symbolFuel' fuel')))
              · next out₁ b₂ heq =>
                  rw [inflateBlocks, hbit']
                  dsimp only
                  rw [hblock.of_ok out₁ b₂ heq]
                  dsimp only
                  split
                  · exact .done out₁ b₂
                  · exact ih (by omega) b₂ out₁

theorem goes_inflate (input more : Bytes) :
    Goes more (inflate input) (inflate (input ++ more)) := by
  have hfuel : 8 * input.length + 1 ≤ 8 * (input ++ more).length + 1 := by
    rw [List.length_append]
    omega
  exact goes_inflateBlocks hfuel hfuel (Bits.ofBytes input) #[] more

end GlyphSearch.Gzip
