import Hengine.Http.RequestBody

/-!
# What the Save Filter Does

The save filter of the request body adds what it is given to what is saved. A call whose chain has
the last buffer passes that chain, and no other, to the input body filters.
-/

namespace Hengine

open List

/-- The bytes of a chain. -/
def bytesOf (m : ByteMemory) (bufs : List BodyBuf) : List UInt8 := bufs.flatMap (BodyBuf.bytes m)

@[simp]
theorem lastOnly_bytes (m : ByteMemory) : lastOnly.bytes m = [] := rfl

section Save

variable {conf : BodyConf} {st : BodyState}

/-- Buffers before the last one are linked. -/
theorem saveBufs_more (whole : List BodyBuf) {out : List BodyBuf}
    (h : ∀ b ∈ out, b.lastBuf = false) :
    saveBufs conf whole st out = .ok { st with bufs := st.bufs ++ out.map BodyPart.mem } := by
  induction out generalizing st with
  | nil => simp [saveBufs]
  | cons b out ih =>
    have hb : b.lastBuf = false := h b (by simp)
    rw [saveBufs, hb]
    simp only [Bool.false_eq_true, if_false]
    rw [ih fun c hc => h c (by simp [hc])]
    simp

/-- Linking buffers up to the last. -/
theorem saveBufs_last (whole : List BodyBuf) {init : List BodyBuf} {b : BodyBuf}
    (h : ∀ c ∈ init, c.lastBuf = false) (hb : b.lastBuf = true) (hsaved : st.lastSaved = false) :
    saveBufs conf whole st (init ++ [b])
      = match passInput conf st.mem st.passed whole with
        | .error e => .error e
        | .ok passed =>
          .ok { st with lastSaved := true, passed := passed,
                        bufs := st.bufs ++ (init ++ [b]).map BodyPart.mem } := by
  induction init generalizing st with
  | nil =>
    simp only [nil_append, saveBufs, hb, hsaved, if_true, Bool.false_eq_true, if_false]
    rfl
  | cons c init ih =>
    have hc : c.lastBuf = false := h c (by simp)
    rw [cons_append, saveBufs, hc]
    simp only [Bool.false_eq_true, if_false]
    rw [@ih { st with bufs := st.bufs ++ [.mem c] } (fun d hd => h d (by simp [hd])) hsaved]
    simp

end Save

end Hengine
