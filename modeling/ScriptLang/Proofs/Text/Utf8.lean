import ScriptLang.Text.Utf8

/-!
# Texts as bytes

Result:
* `ofUtf8_utf8`: the bytes of a text are read as that text.
-/
namespace ScriptLang.Text

theorem byteArray_loop (bytes : ByteArray) (i : Nat) (read : List UInt8) :
    ByteArray.toList.loop bytes i read = read.reverse ++ bytes.data.toList.drop i := by
  fun_induction ByteArray.toList.loop bytes i read with
  | case1 i read hlt ih =>
    have hget : bytes.get! i = bytes.data.toList[i] := getElem!_pos bytes.data i hlt
    rw [ih, hget, List.reverse_cons, List.append_assoc, List.singleton_append,
      List.getElem_cons_drop]
  | case2 i read hge =>
    have hlen : bytes.data.toList.length ≤ i := Nat.not_lt.mp hge
    rw [List.drop_eq_nil_of_le hlen, List.append_nil]

theorem byteArray_toList (bytes : ByteArray) : bytes.toList = bytes.data.toList := by
  rw [ByteArray.toList, byteArray_loop]
  rfl

theorem ofUtf8_utf8 (s : String) : ofUtf8? (utf8 s) = some s := by
  have hbytes : (⟨s.toUTF8.toList.toArray⟩ : ByteArray) = s.toUTF8 := by
    rw [byteArray_toList, Array.toArray_toList]
  unfold ofUtf8? utf8 String.fromUTF8?
  rw [hbytes, String.toUTF8_eq_toByteArray, dif_pos s.isValidUTF8]
  rfl

end ScriptLang.Text
