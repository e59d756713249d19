import OrderbookFix.Fix.Helpers.RoundTrip
/-!
# The codec round trip

A message built from fields with distinct tags and values free of the
separator parses back out of any buffer it is at the front of: the whole
of it is taken, and its fields are the ones given, the header and the
checksum.
-/

namespace OrderbookFix

namespace Fix

/-- **The codec round trip inside a stream.** The bound is the one a
string's size has. -/
theorem parse_build (soh : Soh) (body : Body) (r : Bytes) (htags : (body.map Prod.fst).Nodup)
    (hrange : ∀ kv ∈ body, 0 ≤ kv.1 ∧ kv.1 ≤ 2 ^ 31 - 1)
    (hreserved : ∀ kv ∈ body,
      kv.1 ≠ Tag.beginString ∧ kv.1 ≠ Tag.bodyLength ∧ kv.1 ≠ Tag.checkSum)
    (hvalues : ∀ kv ∈ body, soh.byte ∉ kv.2) (hsize : (build soh body ++ r).length < 2 ^ 64) :
    ∃ m, parseOne soh (build soh body ++ r) = .ok ⟨.none, (build soh body).length, m⟩ ∧
      ∀ t, m.get t = List.lookup t
        ((Tag.beginString, ascii "FIX.4.4") ::
          (Tag.bodyLength, decimal (fieldBytes soh.byte body).length) ::
          (Tag.checkSum, formatChecksum (checksum
            (header soh.byte (fieldBytes soh.byte body).length ++ fieldBytes soh.byte body))) ::
          body) := by
  have h : Buildable soh.byte body := {
    tags := fun kv hkv => ⟨(hrange kv hkv).1, by have := (hrange kv hkv).2; omega⟩
    nodup := htags
    values := hvalues
    reserved := hreserved }
  refine ⟨_, parseOne_build h r hsize, fun t => ?_⟩
  rw [Message.get, parsedFields, fieldBytes_framed]
  by_cases ht : t = Tag.checkSum
  · subst ht
    rw [AList.lookup_insert]
    rfl
  · rw [AList.lookup_insert_ne ht, lookup_addFields h.framed.nodup, AList.lookup_empty,
      Option.or_none, framed]
    have hten : (t == Tag.checkSum) = false := beq_eq_false_iff_ne.mpr ht
    simp only [List.lookup_cons, hten]

/-- Empty values, and values that look like fields, come through. -/
theorem parse_build_tricky_values :
    ∃ m, parseOne .text
        (build .text [(35, ascii "D"), (58, ascii "10=000"), (11, [])] ++ ascii "8=FIX.4.4|9=") =
          .ok ⟨.none,
            (build .text [(35, ascii "D"), (58, ascii "10=000"), (11, [])]).length, m⟩ ∧
      ∀ t, m.get t = List.lookup t
        ((Tag.beginString, ascii "FIX.4.4") ::
          (Tag.bodyLength, decimal (fieldBytes Soh.text.byte
            [(35, ascii "D"), (58, ascii "10=000"), (11, [])]).length) ::
          (Tag.checkSum, formatChecksum (checksum
            (header Soh.text.byte (fieldBytes Soh.text.byte
                [(35, ascii "D"), (58, ascii "10=000"), (11, [])]).length ++
              fieldBytes Soh.text.byte [(35, ascii "D"), (58, ascii "10=000"), (11, [])]))) ::
          [(35, ascii "D"), (58, ascii "10=000"), (11, [])]) :=
  parse_build .text [(35, ascii "D"), (58, ascii "10=000"), (11, [])] (ascii "8=FIX.4.4|9=")
    (by decide) (by decide) (by decide) (by decide) (by decide)

end Fix

end OrderbookFix
