import CarSlice.Archive.Cases

/-!
# What a reader carries through its calls

A reader reads lengths and bodies, one behind the other, and does the rest without its source.
Whatever these two carry is carried by everything that a reader does (`Carried`).
-/

namespace CarSlice.Archive.Reader

/-- A relation of a reader to what becomes of it that is settled by the source and the count of
bytes, and holds when a length or a body is read, whether that fails or not. -/
structure Carried (related : Reader → Reader → Prop) : Prop where
  trans : ∀ {r r' r'' : Reader}, related r r' → related r' r'' → related r r''
  beside : ∀ {r r' : Reader}, r'.source = r.source → r'.bytesConsumed = r.bytesConsumed →
    related r r'
  length : ∀ (r : Reader) (acc : Varint.Accumulator) (seen : Bytes),
    related r (r.readLength acc seen).2
  body : ∀ (r : Reader) (length : Nat) (short : FramingFault),
    related r (r.readBody length short).2

variable {related : Reader → Reader → Prop} (h : Carried related)

include h

theorem Carried.of_nextLength {r r' : Reader} {result : Except Error (Option (Nat × Bytes))}
    (hlength : r.nextLength = (result, r')) : related r r' := by
  have hcarried := h.length r {} []
  rwa [show r.readLength {} [] = (result, r') from hlength] at hcarried

theorem Carried.of_readBody {r r' : Reader} {length : Nat} {short : FramingFault}
    {result : Except Error Bytes} (hbody : r.readBody length short = (result, r')) :
    related r r' := by
  have hcarried := h.body r length short
  rwa [hbody] at hcarried

theorem Carried.readNewHeader (r : Reader) : related r r.readNewHeader.2 := by
  have hreads := r.readsNewHeader_readNewHeader
  generalize r.readNewHeader = result at hreads
  cases hreads with
  | noLength e r₁ hlength => exact h.of_nextLength hlength
  | missing r₁ hlength => exact h.of_nextLength hlength
  | empty lengthBytes r₁ hlength => exact h.of_nextLength hlength
  | tooLarge length lengthBytes r₁ hlength => exact h.of_nextLength hlength
  | noBody length lengthBytes e r₁ r₂ hlength hpos hfits hbody =>
    exact h.trans (h.of_nextLength hlength) (h.of_readBody hbody)
  | malformed length lengthBytes body fault r₁ r₂ hlength hpos hfits hbody =>
    exact h.trans (h.of_nextLength hlength) (h.of_readBody hbody)
  | read length lengthBytes body decoded r₁ r₂ hlength hpos hfits hbody =>
    have htaken := h.trans (h.of_nextLength hlength) (h.of_readBody hbody)
    exact h.trans htaken (h.beside rfl rfl)

theorem Carried.readHeader (r : Reader) : related r r.readHeader.2 := by
  cases hheader : r.header with
  | some header =>
    rw [readHeader_of_known hheader]
    exact h.beside rfl rfl
  | none =>
    rw [readHeader_of_new hheader]
    exact h.readNewHeader r

theorem Carried.verify (r : Reader) (block : Block) : related r (r.verify block).2 := by
  obtain ⟨unverified, hverify⟩ := r.verify_snd block
  rw [hverify]
  exact h.beside rfl rfl

theorem Carried.readSection (r : Reader) (length : Nat) (lengthBytes : Bytes) :
    related r (r.readSection length lengthBytes).2 := by
  have hjudged {r₁ r₂ : Reader} {block : Block} {result : Except Error Unit}
      (hverify : { r₁ with blocksRead := r₁.blocksRead + 1 }.verify block = (result, r₂)) :
      related r₁ r₂ := by
    have hcounted : related r₁ { r₁ with blocksRead := r₁.blocksRead + 1 } := h.beside rfl rfl
    have hcarried := h.trans hcounted (h.verify _ block)
    rwa [hverify] at hcarried
  have hreads := r.readsSection_readSection length lengthBytes
  generalize r.readSection length lengthBytes = result at hreads
  cases hreads with
  | noBody e r₁ hbody => exact h.of_readBody hbody
  | badCid body r₁ hbody => exact h.of_readBody hbody
  | refused body payload cid e r₁ r₂ hbody hcid hverify =>
    exact h.trans (h.of_readBody hbody) (hjudged hverify)
  | read body payload cid r₁ r₂ hbody hcid hverify =>
    exact h.trans (h.of_readBody hbody) (hjudged hverify)

theorem Carried.nextSection (r : Reader) : related r r.nextSection.2 := by
  have hsections {r₁ r₂ : Reader} {length : Nat} {lengthBytes : Bytes}
      {result : Except Error Block}
      (hsection : r₁.readSection length lengthBytes = (result, r₂)) : related r₁ r₂ := by
    have hcarried := h.readSection r₁ length lengthBytes
    rwa [hsection] at hcarried
  have hreads := r.readsOn_nextSection
  generalize r.nextSection = result at hreads
  cases hreads with
  | noLength e r₁ hlength => exact h.of_nextLength hlength
  | spent r₁ hlength => exact h.of_nextLength hlength
  | marker lengthBytes r₁ hlength => exact h.of_nextLength hlength
  | empty lengthBytes r₁ hlength => exact h.of_nextLength hlength
  | tooLarge length lengthBytes r₁ hlength => exact h.of_nextLength hlength
  | failed length lengthBytes e r₁ r₂ hlength hpos hfits hsection =>
    exact h.trans (h.of_nextLength hlength) (hsections hsection)
  | block length lengthBytes block r₁ r₂ hlength hpos hfits hsection =>
    exact h.trans (h.of_nextLength hlength) (hsections hsection)

theorem Carried.next (r : Reader) : related r r.next.2 := by
  have hheader := h.readHeader r
  have hreads := r.readsNext_next
  generalize r.next = result at hreads
  cases hreads with
  | noHeader e r₁ hread => rwa [hread] at hheader
  | behind header r₁ result hread hsection =>
    rw [hread] at hheader
    exact h.trans hheader (hsection ▸ h.nextSection r₁)

end CarSlice.Archive.Reader
