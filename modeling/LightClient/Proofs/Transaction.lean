import LightClient.Transaction
/-!
# What an encoding tells

In the encoding of a transaction every part tells where it ends and what it stands for, whatever bytes come after it
(`SelfDelimiting`): a number and a digest by their width, a byte string and a list by the length in front of them. Parts
in a row are read one by one, and so are the items of a list, for their number is read first
(`SelfDelimiting.counted`).

So two transactions whose encodings begin two byte strings alike are one transaction, and their txids are equal only if
the double SHA-256 takes two different encodings to one digest (`Transaction.eq_of_toBytes_append`). What a length in
four bytes cannot say is left out (`Transaction.Fits`).
-/
namespace LightClient

/-- What is written tells where it ends and what it stands for, whatever comes after it. -/
def SelfDelimiting {α : Type} (fits : α → Prop) (write : α → Bytes) : Prop :=
  ∀ ⦃a b : α⦄, fits a → fits b → ∀ ⦃r s : Bytes⦄, write a ++ r = write b ++ s → a = b ∧ r = s

/-- A list with the number of its items in front. -/
def counted {α : Type} (write : α → Bytes) (as : List α) : Bytes :=
  Bytes.littleEndian 4 as.length ++ as.flatMap write

namespace SelfDelimiting

variable {α : Type} {fits : α → Prop} {write : α → Bytes}

theorem of_width {width : Nat} (hwidth : ∀ a, (write a).length = width)
    (hinj : ∀ ⦃a b⦄, fits a → fits b → write a = write b → a = b) : SelfDelimiting fits write := by
  intro a b ha hb r s h
  obtain ⟨hwrite, hrest⟩ := List.append_inj h ((hwidth a).trans (hwidth b).symm)
  exact ⟨hinj ha hb hwrite, hrest⟩

theorem number (k : Nat) : SelfDelimiting (· < 256 ^ k) (Bytes.littleEndian k) := by
  refine of_width (Bytes.length_littleEndian k) fun m n hm hn h => ?_
  have hvalue := congrArg Bytes.toNat h
  rwa [Bytes.toNat_littleEndian, Bytes.toNat_littleEndian, Nat.mod_eq_of_lt hm, Nat.mod_eq_of_lt hn] at hvalue

theorem word32 : SelfDelimiting (fun _ => True) fun x : UInt32 => Bytes.littleEndian 4 x.toNat := by
  intro x y _ _ r s h
  obtain ⟨hvalue, hrest⟩ := number 4 x.toNat_lt y.toNat_lt h
  exact ⟨UInt32.toNat.inj hvalue, hrest⟩

theorem word64 : SelfDelimiting (fun _ => True) fun x : UInt64 => Bytes.littleEndian 8 x.toNat := by
  intro x y _ _ r s h
  obtain ⟨hvalue, hrest⟩ := number 8 x.toNat_lt y.toNat_lt h
  exact ⟨UInt64.toNat.inj hvalue, hrest⟩

theorem digest : SelfDelimiting (fun _ => True) Digest.bytes :=
  of_width Digest.length_bytes fun ⟨_, _⟩ ⟨_, _⟩ _ _ h => by
    cases h
    rfl

theorem withLength : SelfDelimiting (·.length < 2 ^ 32) Bytes.withLength := by
  intro a b ha hb r s h
  rw [Bytes.withLength, Bytes.withLength, List.append_assoc, List.append_assoc] at h
  obtain ⟨hlength, h⟩ := number 4 ha hb h
  exact List.append_inj h hlength

/-- Items in a row, if their number is known. -/
theorem items (hw : SelfDelimiting fits write) : ∀ {as bs : List α}, as.length = bs.length →
    (∀ a ∈ as, fits a) → (∀ b ∈ bs, fits b) → ∀ {r s : Bytes}, as.flatMap write ++ r = bs.flatMap write ++ s →
      as = bs ∧ r = s
  | [], [], _, _, _, _, _, h => ⟨rfl, h⟩
  | a :: as, b :: bs, hlength, ha, hb, r, s, h => by
    rw [List.flatMap_cons, List.flatMap_cons, List.append_assoc, List.append_assoc] at h
    obtain ⟨hhead, h⟩ := hw (ha a List.mem_cons_self) (hb b List.mem_cons_self) h
    obtain ⟨htail, hrest⟩ := items hw (Nat.succ.inj hlength) (fun x hx => ha x (List.mem_cons_of_mem a hx))
      (fun x hx => hb x (List.mem_cons_of_mem b hx)) h
    exact ⟨by rw [hhead, htail], hrest⟩

theorem counted (hw : SelfDelimiting fits write) :
    SelfDelimiting (fun as : List α => as.length < 2 ^ 32 ∧ ∀ a ∈ as, fits a) (counted write) := by
  intro as bs has hbs r s h
  rw [LightClient.counted, LightClient.counted, List.append_assoc, List.append_assoc] at h
  obtain ⟨hlength, h⟩ := number 4 has.1 hbs.1 h
  exact items hw hlength has.2 hbs.2 h

end SelfDelimiting

/-! ## Transactions -/

theorem TxInput.selfDelimiting : SelfDelimiting (·.signature.length < 2 ^ 32) TxInput.toBytes := by
  rintro ⟨⟨txid, index⟩, signature, sequence⟩ ⟨⟨txid', index'⟩, signature', sequence'⟩ hfits hfits' r s h
  simp only [TxInput.toBytes, List.append_assoc] at h
  obtain ⟨rfl, hindex⟩ := SelfDelimiting.digest trivial trivial h
  obtain ⟨rfl, hsignature⟩ := SelfDelimiting.word32 trivial trivial hindex
  obtain ⟨rfl, hsequence⟩ := SelfDelimiting.withLength hfits hfits' hsignature
  obtain ⟨rfl, hrest⟩ := SelfDelimiting.word32 trivial trivial hsequence
  exact ⟨rfl, hrest⟩

theorem TxOutput.selfDelimiting : SelfDelimiting (·.address.length < 2 ^ 32) TxOutput.toBytes := by
  rintro ⟨value, address⟩ ⟨value', address'⟩ hfits hfits' r s h
  simp only [TxOutput.toBytes, List.append_assoc] at h
  obtain ⟨rfl, haddress⟩ := SelfDelimiting.word64 trivial trivial h
  obtain ⟨rfl, hrest⟩ := SelfDelimiting.withLength hfits hfits' haddress
  exact ⟨rfl, hrest⟩

namespace Transaction

/-- Every length of the transaction can be said in four bytes. -/
structure Fits (t : Transaction) : Prop where
  inputs : t.inputs.length < 2 ^ 32
  signatures : ∀ i ∈ t.inputs, i.signature.length < 2 ^ 32
  outputs : t.outputs.length < 2 ^ 32
  addresses : ∀ o ∈ t.outputs, o.address.length < 2 ^ 32

theorem toBytes_eq (t : Transaction) :
    t.toBytes = Bytes.littleEndian 4 t.version.toNat ++ (counted TxInput.toBytes t.inputs
      ++ (counted TxOutput.toBytes t.outputs ++ Bytes.littleEndian 4 t.lockTime.toNat)) := by
  simp only [toBytes, counted, List.append_assoc]

theorem selfDelimiting : SelfDelimiting Fits toBytes := by
  rintro ⟨version, inputs, outputs, lockTime⟩ ⟨version', inputs', outputs', lockTime'⟩ hfits hfits' r s h
  simp only [toBytes_eq, List.append_assoc] at h
  obtain ⟨rfl, hinputs⟩ := SelfDelimiting.word32 trivial trivial h
  obtain ⟨rfl, houtputs⟩ := TxInput.selfDelimiting.counted ⟨hfits.inputs, hfits.signatures⟩
    ⟨hfits'.inputs, hfits'.signatures⟩ hinputs
  obtain ⟨rfl, hlockTime⟩ := TxOutput.selfDelimiting.counted ⟨hfits.outputs, hfits.addresses⟩
    ⟨hfits'.outputs, hfits'.addresses⟩ houtputs
  obtain ⟨rfl, hrest⟩ := SelfDelimiting.word32 trivial trivial hlockTime
  exact ⟨rfl, hrest⟩

/-- **An encoding tells its transaction.** Two transactions whose encodings, each with any bytes after it, are the same
byte string are one transaction, and the same bytes come after it. So they share a txid only if they are one transaction
or the double SHA-256 takes their encodings, which are different then, to one digest. -/
theorem eq_of_toBytes_append {t u : Transaction} (ht : t.Fits) (hu : u.Fits) :
    (∀ r s : Bytes, t.toBytes ++ r = u.toBytes ++ s → t = u ∧ r = s) ∧
      (t.txid = u.txid → t = u ∨ t.toBytes ≠ u.toBytes ∧
        Sha256.digest (Sha256.digest t.toBytes) = Sha256.digest (Sha256.digest u.toBytes)) := by
  refine ⟨fun r s h => selfDelimiting ht hu h, fun htxid => ?_⟩
  by_cases heq : t.toBytes = u.toBytes
  · exact .inl (selfDelimiting ht hu (congrArg (· ++ []) heq)).1
  · exact .inr ⟨heq, congrArg Digest.bytes htxid⟩

end Transaction

namespace Sample

def signedPayment (signature address : Bytes) : Transaction :=
  ⟨1, [⟨⟨Digest.zero, 0⟩, signature, 0⟩], [⟨50, address⟩], 0⟩

theorem fits_signedPayment {signature address : Bytes} (hsignature : signature.length < 2 ^ 32)
    (haddress : address.length < 2 ^ 32) : (signedPayment signature address).Fits where
  inputs := Nat.one_lt_two_pow (by decide)
  signatures := by simpa [signedPayment] using hsignature
  outputs := Nat.one_lt_two_pow (by decide)
  addresses := by simpa [signedPayment] using haddress

end Sample

open Sample in
/-- Bytes that look like the end of one encoding stand inside the other. -/
theorem Transaction.eq_of_toBytes_append_payments :
    (signedPayment [7] [1]).Fits ∧ (signedPayment [7] [1, 0, 0, 0, 0]).Fits ∧
      (∀ r s : Bytes, (signedPayment [7] [1]).toBytes ++ r ≠ (signedPayment [7] [1, 0, 0, 0, 0]).toBytes ++ s) ∧
      ∀ r s : Bytes, (signedPayment [7] [1]).toBytes ++ r = (signedPayment [7] [1]).toBytes ++ s → r = s := by
  have hshort : (signedPayment [7] [1]).Fits := fits_signedPayment (by decide) (by decide)
  have hlong : (signedPayment [7] [1, 0, 0, 0, 0]).Fits := fits_signedPayment (by decide) (by decide)
  have hne : signedPayment [7] [1] ≠ signedPayment [7] [1, 0, 0, 0, 0] := by decide
  exact ⟨hshort, hlong, fun r s h => hne ((eq_of_toBytes_append hshort hlong).1 r s h).1,
    fun r s h => ((eq_of_toBytes_append hshort hshort).1 r s h).2⟩

end LightClient
