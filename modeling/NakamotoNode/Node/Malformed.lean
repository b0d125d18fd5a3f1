import NakamotoNode.Node.PoolCalls

/-! # Transactions that cannot be read

`verify_sig` unwraps two slices of the sender, the key that it makes of them, and what it decodes of the
signature; `add_tx` calls it before anything else can fail. A transaction that is not `Readable` makes both
panic, whatever the pool (`verify_sig_total_iff`). -/

namespace NakamotoNode.Node
open Foundations Foundations.RustStd Chain
set_option autoImplicit false

/-- The sender starts with 64 bytes and 16 bytes of a key, and the signature is that of some bytes. -/
structure Readable (C : Crates) (tx : Transaction) : Prop where
  key : ∃ first second rest, tx.sender = first ++ second ++ rest ∧ first.utf8ByteSize = 64 ∧
    second.utf8ByteSize = 16 ∧ (C.fromPkcs1Pem (senderIdPem first second)).isSome
  sig : ∃ bytes, C.base64DecodeVec tx.sig = some bytes ∧ (C.signatureFromBytes bytes).isSome

variable {C : Crates} {tx : Transaction}

/-- The two slices are next to each other. -/
theorem sender_slices_iff {sender first second : String} :
    (sliceGet sender 0 64 = some first ∧ sliceGet sender 64 80 = some second) ↔
      ∃ rest, sender = first ++ second ++ rest ∧ first.utf8ByteSize = 64 ∧ second.utf8ByteSize = 16 := by
  rw [sliceGet_eq_some (by omega), sliceGet_eq_some (by omega)]
  constructor
  · rintro ⟨⟨empty, after, hfirst, hempty, hsize⟩, before, rest, hsecond, hbefore, hsize'⟩
    obtain rfl : empty = "" := String.utf8ByteSize_eq_zero_iff.mp hempty
    rw [String.empty_append] at hfirst
    -- both are the first 64 bytes
    have htake : takeBytes 64 sender.toList = some first.toList := by
      refine takeBytes_eq_some.mpr ⟨after.toList, ?_, ?_⟩
      · rw [hfirst, String.toList_append]
      · rw [String.ofList_toList, hsize]
    have htake' : takeBytes 64 sender.toList = some before.toList := by
      refine takeBytes_eq_some.mpr ⟨(second ++ rest).toList, ?_, ?_⟩
      · rw [hsecond, String.append_assoc, String.toList_append]
      · rw [String.ofList_toList, hbefore]
    obtain rfl := String.toList_inj.mp (Option.some.inj (htake.symm.trans htake'))
    exact ⟨rest, hsecond, hbefore, hsize'⟩
  · rintro ⟨rest, rfl, hsize, hsize'⟩
    refine ⟨⟨"", second ++ rest, ?_, rfl, hsize⟩, first, rest, rfl, hsize, hsize'⟩
    rw [String.empty_append, String.append_assoc]

theorem readable_iff : Readable C tx ↔ ∃ valid, tx.verifySig C = .ok valid := by
  constructor
  · rintro ⟨⟨first, second, rest, hsender, hsize, hsize', hkey⟩, bytes, hbytes, hsig⟩
    obtain ⟨publicKey, hkey⟩ := Option.isSome_iff_exists.mp hkey
    obtain ⟨verifySignature, hsig⟩ := Option.isSome_iff_exists.mp hsig
    obtain ⟨hfirst, hsecond⟩ := sender_slices_iff.mpr ⟨rest, hsender, hsize, hsize'⟩
    refine ⟨C.verify publicKey tx.signedText verifySignature, ?_⟩
    rw [Transaction.verifySig, hfirst, Exec.unwrap_some, Exec.ok_bind, hsecond, Exec.unwrap_some,
      Exec.ok_bind, hkey, Exec.unwrap_some, Exec.ok_bind, hbytes, Exec.unwrap_some, Exec.ok_bind, hsig]
    rfl
  · rintro ⟨valid, h⟩
    obtain ⟨first, hfirst, h⟩ := Exec.bind_eq_ok.mp h
    obtain ⟨second, hsecond, h⟩ := Exec.bind_eq_ok.mp h
    obtain ⟨publicKey, hkey, h⟩ := Exec.bind_eq_ok.mp h
    obtain ⟨bytes, hbytes, h⟩ := Exec.bind_eq_ok.mp h
    obtain ⟨verifySignature, hsig, -⟩ := Exec.bind_eq_ok.mp h
    rw [Exec.unwrap_eq_ok] at hfirst hsecond hkey hbytes hsig
    obtain ⟨rest, hsender, hsize, hsize'⟩ := sender_slices_iff.mp ⟨hfirst, hsecond⟩
    exact ⟨⟨first, second, rest, hsender, hsize, hsize', Option.isSome_of_eq_some hkey⟩,
      bytes, hbytes, Option.isSome_of_eq_some hsig⟩

theorem addTx_panics (h : ¬ Readable C tx) :
    ∃ e, tx.verifySig C = Exec.panic e ∧ ∀ P : TxPool, P.addTx C tx = Exec.panic e := by
  obtain ⟨valid, hvalid⟩ | ⟨e, he⟩ | hout := Exec.outcome_cases (tx.verifySig C)
  · exact absurd (readable_iff.mpr ⟨valid, hvalid⟩) h
  · refine ⟨e, he, fun P => ?_⟩
    rw [TxPool.addTx, he, Exec.panic_bind]
  · exact absurd hout (verifySig_ne_outOfFuel C tx)

theorem addTx_refuses {P : TxPool} (h : tx.verifySig C = .ok false) :
    P.addTx C tx = .ok (false, P) := by
  rw [TxPool.addTx, h, Exec.ok_bind, Bool.and_false]
  rfl

/-- For every transaction: `verify_sig` returns a boolean, and `add_tx` leaves each pool as it is where that
is not true, exactly when the transaction is readable. -/
theorem verify_sig_total_iff (C : Crates) (tx : Transaction) :
    ((∃ valid, tx.verifySig C = .ok valid) ∧
      ∀ calls P, Run (PoolStep C) TxPool.new calls P → tx.verifySig C ≠ .ok true →
        P.addTx C tx = .ok (false, P)) ↔ Readable C tx := by
  rw [← readable_iff, and_iff_left_iff_imp]
  intro h calls P _ hnot
  obtain ⟨valid, hvalid⟩ := readable_iff.mp h
  cases valid with
  | false => exact addTx_refuses hvalid
  | true => exact absurd hvalid hnot

/-- A transaction with empty fields, as it can come from the network. -/
def emptyTx : Transaction := ⟨"", "", "", ""⟩

theorem emptyTx_panics : emptyTx.verifySig walletCrates = Exec.panic .senderSlice ∧
    Run (PoolStep walletCrates) TxPool.new [] TxPool.new ∧
    TxPool.new.addTx walletCrates emptyTx = Exec.panic .senderSlice :=
  ⟨rfl, .nil _, rfl⟩

end NakamotoNode.Node
