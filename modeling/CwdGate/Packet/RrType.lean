/-! The values of `enum sldns_enum_rr_type` that the iterator and the caches look at. -/
namespace CwdGate.RrType

def a : UInt16 := 1
def ns : UInt16 := 2
def md : UInt16 := 3
def mf : UInt16 := 4
def cname : UInt16 := 5
def soa : UInt16 := 6
def mb : UInt16 := 7
def mx : UInt16 := 15
def aaaa : UInt16 := 28
def srv : UInt16 := 33
def kx : UInt16 := 36
def dname : UInt16 := 39
def ds : UInt16 := 43
def nsec : UInt16 := 47
def nsec3 : UInt16 := 50
def any : UInt16 := 255

end CwdGate.RrType
