import LinearGaussian.Scalar.Basic

namespace LinearGaussian

instance : Arith Float where
  zero := 0
  one := 1

instance : RealLike Float where
  decLt := inferInstance
  decLe := inferInstance
  abs := Float.abs
  max a b := if a.isNaN then b else if a < b then b else a
  sqrt := Float.sqrt
  ln := Float.log
  exp := Float.exp
  isFinite := Float.isFinite
  isInfinite := Float.isInf
  ofNat := Float.ofNat
  epsilon := Float.ofBits 0x3cb0000000000000

instance : Tolerances Float where
  zero := 1e-9
  rank := 1e-8

instance : Arith Float32 where
  zero := 0
  one := 1

instance : RealLike Float32 where
  decLt := inferInstance
  decLe := inferInstance
  abs := Float32.abs
  max a b := if a.isNaN then b else if a < b then b else a
  sqrt := Float32.sqrt
  ln := Float32.log
  exp := Float32.exp
  isFinite := Float32.isFinite
  isInfinite := Float32.isInf
  ofNat := Float32.ofNat
  epsilon := Float32.ofBits 0x34000000

instance : Tolerances Float32 where
  zero := 1e-5
  rank := 1e-4

end LinearGaussian
