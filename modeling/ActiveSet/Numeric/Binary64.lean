import ActiveSet.Numeric.Eigen
import ActiveSet.Numeric.LeastSquares
import ActiveSet.Numeric.Simplex

/-!
# The kernels in binary64
-/

namespace ActiveSet.Numeric

def binary64 : Kernels Float := { leastSquares, linearProgram, eigenpairs }

end ActiveSet.Numeric
